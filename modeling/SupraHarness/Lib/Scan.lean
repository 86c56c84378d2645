import Mathlib.Algebra.GroupWithZero.Nat
import Mathlib.Data.List.TakeWhile
import SupraHarness.Lib.Str

/-!
# Scanning text that goes on

What a search, a prefix test or a run of characters finds in a text, and when the text after it makes
no difference: what was found stays found, and nothing new appears across a character that the
pattern does not have.
-/
namespace SupraHarness.Scan

open Str

/-- `str::find`: how many characters stand before the first occurrence. -/
def find (pattern : List Char) : List Char → Option Nat
  | [] => if pattern.isPrefixOf [] then some 0 else none
  | c :: text => if pattern.isPrefixOf (c :: text) then some 0 else (find pattern text).map (· + 1)

/-- The text ends with a character that is none of these. -/
def Sealed (chars text : List Char) : Prop := ∃ init last, text = init ++ [last] ∧ last ∉ chars

theorem Sealed.ne_nil {chars text : List Char} (h : Sealed chars text) : text ≠ [] := by
  obtain ⟨init, last, rfl, -⟩ := h
  simp

theorem Sealed.tail {chars text : List Char} {c : Char} (h : Sealed chars (c :: text)) :
    text = [] ∨ Sealed chars text := by
  obtain ⟨init, last, eq, notin⟩ := h
  cases init with
  | nil =>
    simp only [List.nil_append, List.cons.injEq] at eq
    exact Or.inl eq.2
  | cons d init =>
    simp only [List.cons_append, List.cons.injEq] at eq
    exact Or.inr ⟨init, last, eq.2, notin⟩

theorem Sealed.prepend {chars text : List Char} (front : List Char) (h : Sealed chars text) :
    Sealed chars (front ++ text) := by
  obtain ⟨init, last, rfl, notin⟩ := h
  exact ⟨front ++ init, last, by simp, notin⟩

/-- What is left of a sealed text after characters it is sealed against. -/
theorem Sealed.drop {chars front text : List Char} (h : Sealed chars (front ++ text))
    (among : ∀ c ∈ front, c ∈ chars) : Sealed chars text := by
  obtain ⟨init, last, eq, notin⟩ := h
  rcases List.eq_nil_or_concat text with rfl | ⟨rest, c, rfl⟩
  · rw [List.append_nil] at eq
    exact absurd (among last (by rw [eq]; simp)) notin
  · rw [List.concat_eq_append] at eq ⊢
    rw [← List.append_assoc] at eq
    have last_eq := (List.append_inj' eq rfl).2
    rw [List.cons.injEq] at last_eq
    exact ⟨rest, c, rfl, last_eq.1 ▸ notin⟩

theorem Sealed.mono {chars fewer text : List Char} (h : Sealed chars text)
    (sub : ∀ c ∈ fewer, c ∈ chars) : Sealed fewer text := by
  obtain ⟨init, last, eq, notin⟩ := h
  exact ⟨init, last, eq, fun mem => notin (sub last mem)⟩

/-- A prefix does not reach across the end of a text that is sealed against it. -/
theorem starts_of_sealed {front text more : List Char} (h : Sealed front text)
    (pre : front <+: text ++ more) : front <+: text := by
  by_cases short : front.length ≤ text.length
  · exact List.prefix_of_prefix_length_le pre (List.prefix_append _ _) short
  · obtain ⟨init, last, rfl, notin⟩ := h
    have covered : init ++ [last] <+: front :=
      List.prefix_of_prefix_length_le (List.prefix_append _ _) pre (by omega)
    exact absurd (covered.subset (by simp)) notin

theorem stripPrefix_eq_some {front text rest : List Char} :
    stripPrefix front text = some rest ↔ text = front ++ rest := by
  unfold stripPrefix
  constructor
  · intro h
    split at h
    · rename_i pre
      obtain ⟨more, rfl⟩ := List.isPrefixOf_iff_prefix.1 pre
      cases h
      simp
    · cases h
  · rintro rfl
    rw [if_pos (List.isPrefixOf_iff_prefix.2 (List.prefix_append _ _))]
    simp

theorem stripPrefix_append {front text : List Char} (h : Sealed front text) (more : List Char) :
    stripPrefix front (text ++ more) = (stripPrefix front text).map (· ++ more) := by
  cases found : stripPrefix front text with
  | some rest =>
    rw [stripPrefix_eq_some.1 found]
    exact stripPrefix_eq_some.2 (by simp)
  | none =>
    cases longer : stripPrefix front (text ++ more) with
    | none => rfl
    | some rest =>
      have pre : front <+: text ++ more := by
        rw [stripPrefix_eq_some.1 longer]
        exact List.prefix_append _ _
      obtain ⟨left, eq⟩ := starts_of_sealed h pre
      rw [stripPrefix_eq_some.2 eq.symm] at found
      cases found

theorem isPrefixOf_append {front text : List Char} (h : Sealed front text) (more : List Char) :
    front.isPrefixOf (text ++ more) = front.isPrefixOf text := by
  rw [Bool.eq_iff_iff, List.isPrefixOf_iff_prefix, List.isPrefixOf_iff_prefix]
  exact ⟨starts_of_sealed h, fun pre => pre.trans (List.prefix_append _ _)⟩

theorem find_nil (pattern : List Char) : find pattern [] = if pattern.isPrefixOf [] then some 0 else none := rfl

theorem find_cons (pattern : List Char) (c : Char) (text : List Char) :
    find pattern (c :: text) = if pattern.isPrefixOf (c :: text) then some 0 else (find pattern text).map (· + 1) := rfl

theorem find_bound {pattern text : List Char} {i : Nat} (h : find pattern text = some i) :
    i + pattern.length ≤ text.length := by
  induction text generalizing i with
  | nil =>
    rw [find_nil] at h
    split at h
    · rename_i pre
      cases h
      simpa using (List.isPrefixOf_iff_prefix.1 pre).length_le
    · cases h
  | cons c text ih =>
    rw [find_cons] at h
    split at h
    · rename_i pre
      cases h
      simpa using (List.isPrefixOf_iff_prefix.1 pre).length_le
    · obtain ⟨j, found, rfl⟩ := Option.map_eq_some_iff.1 h
      have := ih found
      simp only [List.length_cons]
      omega

/-- What is found stands there. -/
theorem find_starts {pattern text : List Char} {i : Nat} (h : find pattern text = some i) :
    pattern <+: text.drop i := by
  induction text generalizing i with
  | nil =>
    rw [find_nil] at h
    split at h
    · rename_i pre
      cases h
      exact List.isPrefixOf_iff_prefix.1 pre
    · cases h
  | cons c text ih =>
    rw [find_cons] at h
    split at h
    · rename_i pre
      cases h
      exact List.isPrefixOf_iff_prefix.1 pre
    · obtain ⟨j, found, rfl⟩ := Option.map_eq_some_iff.1 h
      simpa using ih found

theorem find_of_starts {pattern text : List Char} (h : pattern <+: text) : find pattern text = some 0 := by
  have := List.isPrefixOf_iff_prefix.2 h
  cases text with
  | nil => rw [find_nil, if_pos this]
  | cons c text => rw [find_cons, if_pos this]

/-- What is found in a text is found there when the text goes on. -/
theorem find_append {pattern text : List Char} {i : Nat} (h : find pattern text = some i)
    (more : List Char) : find pattern (text ++ more) = some i := by
  induction text generalizing i with
  | nil =>
    have pre := find_starts h
    have bound := find_bound h
    simp only [List.length_nil, Nat.le_zero_eq, Nat.add_eq_zero_iff] at bound
    rw [bound.1]
    exact find_of_starts (by rw [List.length_eq_zero_iff.1 bound.2]; exact List.nil_prefix)
  | cons c text ih =>
    have bound := find_bound h
    rw [find_cons] at h
    split at h
    · rename_i pre
      cases h
      exact find_of_starts ((List.isPrefixOf_iff_prefix.1 pre).trans (List.prefix_append _ _))
    · rename_i pre
      obtain ⟨j, found, rfl⟩ := Option.map_eq_some_iff.1 h
      have still : pattern.isPrefixOf (c :: text ++ more) = false := by
        rw [Bool.eq_false_iff, Ne, List.isPrefixOf_iff_prefix]
        intro longer
        exact pre (List.isPrefixOf_iff_prefix.2
          (List.prefix_of_prefix_length_le longer (List.prefix_append _ _) (by omega)))
      rw [List.cons_append] at still ⊢
      rw [find_cons, still, if_neg (by decide), ih found]
      rfl

/-- Nothing new is found across the end of a text that is sealed against the pattern. -/
theorem find_append_none {pattern text : List Char} (h : find pattern text = none)
    (sealing : Sealed pattern text) (more : List Char) :
    find pattern (text ++ more) = (find pattern more).map (· + text.length) := by
  induction text with
  | nil => exact absurd rfl sealing.ne_nil
  | cons c text ih =>
    rw [find_cons] at h
    split at h
    · cases h
    · rename_i pre
      rw [Option.map_eq_none_iff] at h
      have still : pattern.isPrefixOf (c :: (text ++ more)) = false := by
        rw [← List.cons_append, isPrefixOf_append sealing]
        exact Bool.eq_false_iff.2 pre
      rw [List.cons_append, find_cons, still, if_neg (by decide)]
      rcases sealing.tail with rfl | sealing
      · simp
      · rw [ih h sealing, Option.map_map]
        rfl

theorem takeWhile_append {p : Char → Bool} {text : List Char} (h : ∃ c ∈ text, p c = false)
    (more : List Char) : (text ++ more).takeWhile p = text.takeWhile p := by
  rw [List.takeWhile_append, if_neg]
  intro all
  obtain ⟨c, mem, stops⟩ := h
  have eq : text.takeWhile p = text := (List.takeWhile_prefix p).eq_of_length all
  rw [List.takeWhile_eq_self_iff] at eq
  rw [eq c mem] at stops
  cases stops

theorem dropWhile_append {p : Char → Bool} {text : List Char} (h : ∃ c ∈ text, p c = false)
    (more : List Char) : (text ++ more).dropWhile p = text.dropWhile p ++ more := by
  rw [List.dropWhile_append, if_neg]
  intro none
  obtain ⟨c, mem, stops⟩ := h
  rw [List.isEmpty_iff, List.dropWhile_eq_nil_iff] at none
  rw [none c mem] at stops
  cases stops

/-- Two texts without the character, each before one, are the same. -/
theorem before_unique {c : Char} {s t u v : List Char} (hs : c ∉ s) (ht : c ∉ t)
    (h : s ++ c :: u = t ++ c :: v) : s = t ∧ u = v := by
  induction s generalizing t with
  | nil =>
    cases t with
    | nil => simpa using h
    | cons d t =>
      simp only [List.nil_append, List.cons_append, List.cons.injEq] at h
      exact absurd (h.1 ▸ List.mem_cons_self) ht
  | cons d s ih =>
    cases t with
    | nil =>
      simp only [List.nil_append, List.cons_append, List.cons.injEq] at h
      exact absurd (h.1 ▸ List.mem_cons_self) hs
    | cons e t =>
      simp only [List.cons_append, List.cons.injEq] at h
      obtain ⟨rfl, rfl⟩ := ih (fun mem => hs (List.mem_cons_of_mem _ mem))
        (fun mem => ht (List.mem_cons_of_mem _ mem)) h.2
      exact ⟨by rw [h.1], rfl⟩

/-- Decimal numbers before a character that is no digit are read back. -/
theorem toDigits_append_inj {m n : Nat} {c : Char} {s t : List Char} (stop : c.isDigit = false)
    (h : Nat.toDigits 10 m ++ c :: s = Nat.toDigits 10 n ++ c :: t) : m = n := by
  have digits (k : Nat) (rest : List Char) :
      (Nat.toDigits 10 k ++ c :: rest).takeWhile Char.isDigit = Nat.toDigits 10 k := by
    rw [List.takeWhile_append_of_pos fun d mem => Nat.isDigit_of_mem_toDigits (by omega) (by omega) mem]
    simp [stop]
  have same : Nat.toDigits 10 m = Nat.toDigits 10 n := by
    rw [← digits m s, ← digits n t, h]
  rw [← Nat.ofDigitChars_ten_toDigits (n := m), same, Nat.ofDigitChars_ten_toDigits]

end SupraHarness.Scan
