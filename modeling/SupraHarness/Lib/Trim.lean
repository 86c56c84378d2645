import Mathlib.Data.List.DropRight

/-!
# Trimming

What is left of a list when the blanks at both ends are taken off: the only middle part that neither
begins nor ends with one.
-/
namespace SupraHarness.Trim

variable {α : Type} (blank : α → Bool)

def Blank (text : List α) : Prop := ∀ c ∈ text, blank c = true

/-- Neither the first nor the last is blank. -/
structure Trimmed (core : List α) : Prop where
  head : ∀ c ∈ core.head?, blank c = false
  last : ∀ c ∈ core.getLast?, blank c = false

def trim (text : List α) : List α := (text.dropWhile blank).rdropWhile blank

variable {blank}

theorem Blank.append {front back : List α} (hf : Blank blank front) (hb : Blank blank back) :
    Blank blank (front ++ back) := by
  intro c hc
  exact (List.mem_append.mp hc).elim (hf c) (hb c)

theorem dropWhile_of_head {text : List α} (h : ∀ c ∈ text.head?, blank c = false) :
    text.dropWhile blank = text := by
  cases text with
  | nil => rfl
  | cons c text => exact List.dropWhile_cons_of_neg (by rw [h c rfl]; exact Bool.false_ne_true)

theorem rdropWhile_append {front back : List α} (h : Blank blank back) :
    (front ++ back).rdropWhile blank = front.rdropWhile blank := by
  rw [List.rdropWhile, List.reverse_append, List.dropWhile_append_of_pos, List.rdropWhile]
  intro c hc
  exact h c (List.mem_reverse.mp hc)

theorem rdropWhile_of_last {text : List α} (h : ∀ c ∈ text.getLast?, blank c = false) :
    text.rdropWhile blank = text := by
  rw [List.rdropWhile_eq_self_iff]
  intro hne
  rw [h _ (List.getLast?_eq_some_getLast hne)]
  exact Bool.false_ne_true

/-- A trimmed text is what trimming leaves of it between any blanks. -/
theorem trim_append {front core back : List α} (hf : Blank blank front) (hc : Trimmed blank core)
    (hb : Blank blank back) : trim blank (front ++ core ++ back) = core := by
  rw [trim, List.append_assoc, List.dropWhile_append_of_pos hf]
  cases core with
  | nil =>
    rw [List.nil_append, ← List.append_nil back, List.dropWhile_append_of_pos hb]
    rfl
  | cons c core =>
    have hhead : ∀ d ∈ (c :: core ++ back).head?, blank d = false := hc.head
    rw [dropWhile_of_head hhead, rdropWhile_append hb, rdropWhile_of_last hc.last]

theorem head?_dropWhile (text : List α) : ∀ c ∈ (text.dropWhile blank).head?, blank c = false := by
  intro c hc
  have h := List.head?_dropWhile_not blank text
  rw [hc] at h
  simpa using h

theorem getLast?_rdropWhile (text : List α) : ∀ c ∈ (text.rdropWhile blank).getLast?, blank c = false := by
  intro c hc
  have hne : text.rdropWhile blank ≠ [] := by
    intro hnil
    rw [hnil] at hc
    cases hc
  have hlast := List.rdropWhile_last_not blank _ hne
  rw [List.getLast_of_getLast?_eq_some hc] at hlast
  simpa using hlast

variable (blank) in
theorem exists_trim (text : List α) :
    ∃ front back, Blank blank front ∧ Blank blank back ∧ Trimmed blank (trim blank text) ∧
      text = front ++ trim blank text ++ back := by
  refine ⟨text.takeWhile blank, (text.dropWhile blank).rtakeWhile blank, ?_, ?_, ⟨?_, ?_⟩, ?_⟩
  · intro c hc
    exact List.mem_takeWhile_imp hc
  · intro c hc
    exact List.mem_rtakeWhile_imp hc
  · intro c hc
    apply head?_dropWhile text c
    obtain ⟨back, heq⟩ := List.rdropWhile_prefix blank (text.dropWhile blank)
    rw [← heq]
    cases hcore : (text.dropWhile blank).rdropWhile blank with
    | nil => rw [trim, hcore] at hc; cases hc
    | cons d core => rw [trim, hcore] at hc; exact hc
  · exact getLast?_rdropWhile (text.dropWhile blank)
  · rw [trim, List.append_assoc, List.rdropWhile_append_rtakeWhile, List.takeWhile_append_dropWhile]

variable (blank) in
/-- The blanks at the end alone. -/
theorem exists_trimEnd (text : List α) :
    ∃ core back, text = core ++ back ∧ Blank blank back ∧ ∀ c ∈ core.getLast?, blank c = false := by
  refine ⟨text.rdropWhile blank, text.rtakeWhile blank, ?_, ?_, ?_⟩
  · rw [List.rdropWhile_append_rtakeWhile]
  · intro c hc
    exact List.mem_rtakeWhile_imp hc
  · exact getLast?_rdropWhile text

end SupraHarness.Trim
