import Mathlib.Data.List.SplitOn
import SupraHarness.Lib.Scan

/-!
# Lines and their ends

A text as its lines: each ends at a line feed, and a carriage return just before that belongs to the end of the line,
not to what the line says. A mark that begins a line is found at the first line after another that begins with it.
-/
namespace SupraHarness.Lines

open Scan Str

/-- What a line says that stands before a line feed. -/
def content (raw : List Char) : List Char := if raw.getLast? = some '\r' then raw.dropLast else raw

/-- Lines, each with its line feed. -/
def lined (raws : List (List Char)) : List Char := raws.flatMap (· ++ ['\n'])

/-- A carriage return before every line feed. -/
def crlf (text : List Char) : List Char := text.flatMap fun c => if c = '\n' then ['\r', '\n'] else [c]

@[simp] theorem lined_nil : lined [] = [] := rfl

theorem lined_cons (raw : List Char) (raws : List (List Char)) : lined (raw :: raws) = raw ++ '\n' :: lined raws := by
  rw [lined, List.flatMap_cons, List.append_assoc]
  rfl

theorem lined_append (raws raws' : List (List Char)) : lined (raws ++ raws') = lined raws ++ lined raws' :=
  List.flatMap_append

@[simp] theorem content_nil : content [] = [] := rfl

theorem content_concat (raw : List Char) : content (raw ++ ['\r']) = raw := by
  rw [content, if_pos List.getLast?_concat, List.dropLast_concat]

theorem content_of_plain {raw : List Char} (plain : '\r' ∉ raw) : content raw = raw := by
  rw [content, if_neg]
  exact fun last => plain (List.mem_of_getLast? last)

/-- A line says all of what stands there, or all but a carriage return. -/
theorem content_cases (raw : List Char) : raw = content raw ∨ raw = content raw ++ ['\r'] := by
  rw [content]
  by_cases last : raw.getLast? = some '\r'
  · rw [if_pos last]
    exact .inr (List.dropLast_append_getLast? _ last).symm
  · rw [if_neg last]
    exact .inl rfl

theorem content_eq_iff {raw line : List Char} (plain : '\r' ∉ line) :
    content raw = line ↔ raw = line ∨ raw = line ++ ['\r'] := by
  constructor
  · rintro rfl
    exact content_cases raw
  · rintro (rfl | rfl)
    · exact content_of_plain plain
    · exact content_concat line

/-- What begins a text and has not the character behind a part of it begins that part. -/
theorem starts_of_starts {mark front back : List Char} {c : Char} (free : c ∉ mark)
    (starts : mark <+: front ++ c :: back) : mark <+: front := by
  by_cases short : mark.length ≤ front.length
  · exact List.prefix_of_prefix_length_le starts (List.prefix_append _ _) short
  · have covered : front ++ [c] <+: mark := by
      refine List.prefix_of_prefix_length_le ?_ starts ?_
      · exact ⟨back, by rw [List.append_assoc, List.singleton_append]⟩
      · rw [List.length_append, List.length_singleton]
        omega
    exact absurd (covered.subset (by simp)) free

theorem starts_content_iff {mark raw : List Char} (free : '\r' ∉ mark) : mark <+: content raw ↔ mark <+: raw := by
  rcases content_cases raw with same | more
  · rw [← same]
  · constructor
    · intro starts
      rw [more]
      exact starts.trans (List.prefix_append _ _)
    · intro starts
      rw [more] at starts
      exact starts_of_starts free starts

/-! ## Reading the lines back -/

/-- `str::lines` reads what the lines say, and then what comes behind them. -/
theorem lines_lined {raws : List (List Char)} (plain : ∀ raw ∈ raws, '\n' ∉ raw) (text : List Char) :
    lines (lined raws ++ text) = raws.map content ++ lines text := by
  induction raws with
  | nil => rfl
  | cons raw raws ih =>
    obtain ⟨here, others⟩ := List.forall_mem_cons.1 plain
    have rest := ih others
    rw [lines] at rest ⊢
    rw [lined_cons, List.append_assoc, linesFrom_append here, List.nil_append, List.cons_append, linesFrom, if_pos rfl, rest]
    rfl

theorem lines_plain {raw : List Char} (plain : '\n' ∉ raw) : lines raw = if raw = [] then [] else [raw] := by
  have whole := linesFrom_append plain [] []
  rw [List.append_nil, List.nil_append] at whole
  rw [lines, whole, linesFrom]

/-- The pieces between the line feeds are the lines and what comes behind them. -/
theorem splitOn_lined {raws : List (List Char)} (plain : ∀ raw ∈ raws, '\n' ∉ raw) (text : List Char) :
    (lined raws ++ text).splitOn '\n' = raws ++ text.splitOn '\n' := by
  induction raws with
  | nil => rfl
  | cons raw raws ih =>
    obtain ⟨here, others⟩ := List.forall_mem_cons.1 plain
    rw [lined_cons, List.append_assoc, List.cons_append, List.splitOn_append_cons_self_of_not_mem here, ih others,
      List.cons_append]

theorem crlf_append (text text' : List Char) : crlf (text ++ text') = crlf text ++ crlf text' := List.flatMap_append

theorem crlf_feed (text : List Char) : crlf ('\n' :: text) = '\r' :: '\n' :: crlf text := rfl

theorem crlf_of_plain {text : List Char} (plain : '\n' ∉ text) : crlf text = text := by
  induction text with
  | nil => rfl
  | cons c text ih =>
    rw [List.mem_cons, not_or] at plain
    rw [crlf, List.flatMap_cons, if_neg (Ne.symm plain.1)]
    exact congrArg (c :: ·) (ih plain.2)

theorem crlf_lined {raws : List (List Char)} (plain : ∀ raw ∈ raws, '\n' ∉ raw) :
    crlf (lined raws) = lined (raws.map (· ++ ['\r'])) := by
  induction raws with
  | nil => rfl
  | cons raw raws ih =>
    obtain ⟨here, others⟩ := List.forall_mem_cons.1 plain
    rw [List.map_cons, lined_cons, lined_cons, crlf_append, crlf_of_plain here, crlf_feed, ih others, List.append_assoc]
    rfl

/-- The first element with a property, and what stands around it. -/
theorem first_unique {α : Type} {p : α → Prop} {front front' back back' : List α} {a a' : α}
    (before : ∀ x ∈ front, ¬ p x) (here : p a) (before' : ∀ x ∈ front', ¬ p x) (here' : p a')
    (same : front ++ a :: back = front' ++ a' :: back') : front = front' ∧ a = a' ∧ back = back' := by
  induction front generalizing front' with
  | nil =>
    cases front' with
    | nil =>
      cases same
      exact ⟨rfl, rfl, rfl⟩
    | cons first front' =>
      cases same
      exact absurd here (before' _ List.mem_cons_self)
  | cons first front ih =>
    cases front' with
    | nil =>
      cases same
      exact absurd here' (before _ List.mem_cons_self)
    | cons first' front' =>
      rw [List.cons_append, List.cons_append, List.cons.injEq] at same
      obtain ⟨rfl, others⟩ := same
      obtain ⟨rfl, rest⟩ := ih (List.forall_mem_cons.1 before).2 (List.forall_mem_cons.1 before').2 others
      exact ⟨rfl, rest⟩

/-! ## The first line with a mark -/

/-- Nothing is found before the character that begins what is looked for. -/
theorem find_skip {c : Char} {front : List Char} (free : c ∉ front) (mark text : List Char) :
    find (c :: mark) (front ++ text) = (find (c :: mark) text).map (· + front.length) := by
  induction front with
  | nil => simp
  | cons d front ih =>
    rw [List.mem_cons, not_or] at free
    have not : (c :: mark).isPrefixOf (d :: (front ++ text)) = false := by
      rw [List.isPrefixOf, beq_false_of_ne free.1, Bool.false_and]
    rw [List.cons_append, find, not, if_neg (by decide), ih free.2, Option.map_map]
    rfl

variable {mark : List Char}

/-- Behind a first line, the mark is found at the first line that begins with it. -/
theorem find_mark (free : '\n' ∉ mark) {first : List Char} {others : List (List Char)} (plain : '\n' ∉ first)
    (unmarked : ∀ raw ∈ others, '\n' ∉ raw ∧ ¬ mark <+: raw) (after : List Char) :
    find ('\n' :: mark) (lined (first :: others) ++ mark ++ after) = some (first.length + (lined others).length) := by
  induction others generalizing first with
  | nil =>
    rw [lined_cons, lined_nil, List.append_assoc, List.append_assoc, find_skip plain, find_of_starts]
    · rw [Option.map_some, Nat.add_comm]
      rfl
    · exact ⟨after, by simp⟩
  | cons second others ih =>
    obtain ⟨here, more⟩ := List.forall_mem_cons.1 unmarked
    have rest := ih here.1 more
    have not : ('\n' :: mark).isPrefixOf ('\n' :: (lined (second :: others) ++ mark ++ after)) = false := by
      rw [Bool.eq_false_iff, Ne, List.isPrefixOf_iff_prefix, List.cons_prefix_cons, lined_cons, List.append_assoc,
        List.append_assoc]
      rintro ⟨-, starts⟩
      exact here.2 (starts_of_starts free starts)
    rw [lined_cons, List.append_assoc, List.append_assoc, find_skip plain, List.cons_append, ← List.append_assoc, find, not,
      if_neg (by decide), rest, lined_cons]
    simp only [Option.map_some, List.length_append, List.length_cons, Option.some.injEq]
    omega

/-- Where a mark is found behind a line feed, it begins the first line after another that it begins. -/
theorem exists_of_find {text : List Char} {offset : Nat} (found : find ('\n' :: mark) text = some offset) :
    ∃ first others after, text = lined (first :: others) ++ mark ++ after ∧ '\n' ∉ first ∧
      (∀ raw ∈ others, '\n' ∉ raw ∧ ¬ mark <+: raw) ∧ offset + 1 = (lined (first :: others)).length := by
  induction text generalizing offset with
  | nil =>
    rw [find, List.isPrefixOf_cons_nil] at found
    cases found
  | cons c text ih =>
    rw [find] at found
    split_ifs at found with starts
    · rw [List.isPrefixOf_iff_prefix, List.cons_prefix_cons] at starts
      obtain ⟨rfl, after, rfl⟩ := starts
      cases found
      exact ⟨[], [], after, by simp [lined_cons], List.not_mem_nil, List.forall_mem_nil _, by simp [lined_cons]⟩
    · obtain ⟨before, later, rfl⟩ := Option.map_eq_some_iff.1 found
      obtain ⟨first, others, after, rfl, plain, unmarked, length⟩ := ih later
      by_cases feed : c = '\n'
      · subst feed
        refine ⟨[], first :: others, after, ?_, List.not_mem_nil, ?_, ?_⟩
        · rw [lined_cons [], List.nil_append, List.cons_append, List.cons_append]
        · refine List.forall_mem_cons.2 ⟨⟨plain, fun marked => starts ?_⟩, unmarked⟩
          rw [List.isPrefixOf_iff_prefix, List.cons_prefix_cons, lined_cons, List.append_assoc, List.append_assoc]
          exact ⟨rfl, marked.trans (List.prefix_append _ _)⟩
        · rw [lined_cons [], List.nil_append, List.length_cons, length]
      · refine ⟨c :: first, others, after, ?_, ?_, unmarked, ?_⟩
        · rw [lined_cons, lined_cons, List.cons_append, List.cons_append, List.cons_append]
        · rw [List.mem_cons, not_or]
          exact ⟨Ne.symm feed, plain⟩
        · rw [length, lined_cons, lined_cons, List.cons_append, List.length_cons]

end SupraHarness.Lines
