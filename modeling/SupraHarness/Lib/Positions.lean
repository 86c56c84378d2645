import Mathlib.Algebra.GroupWithZero.Nat
import Mathlib.Data.List.DropRight
import SupraHarness.Lib.Utf8

/-!
# Positions in a text

A position is a line and a character in it. Lines end at a line feed, at a carriage return and a line feed, or at a
carriage return alone; characters count the units of UTF-16, and a character past the end of a line is that end. An
offset counts bytes.
-/
namespace SupraHarness.Positions

open Utf8

abbrev Text := List Char

/-- `char::len_utf16`. -/
def utf16Len (c : Char) : Nat := if c.toNat < 0x10000 then 1 else 2

def units (text : Text) : Nat := (text.map utf16Len).sum

/-- The number of bytes of a text. -/
def size (text : Text) : Nat := (encode text).length

/-- What ends a line, or begins the end of one. -/
def IsEnd (c : Char) : Prop := c = '\n' ∨ c = '\r'

instance : DecidablePred IsEnd := fun c => inferInstanceAs (Decidable (c = '\n' ∨ c = '\r'))

/-- What stands before a line, and the rest of the text; nothing where there are fewer lines. -/
def splitAtLine : Nat → Text → Option (Text × Text)
  | 0, text => some ([], text)
  | _ + 1, [] => none
  | line + 1, '\r' :: '\n' :: rest => (splitAtLine line rest).map fun split => ('\r' :: '\n' :: split.1, split.2)
  | line + 1, c :: rest =>
    if IsEnd c then (splitAtLine line rest).map fun split => (c :: split.1, split.2)
    else (splitAtLine (line + 1) rest).map fun split => (c :: split.1, split.2)

/-- The offset of a character in a line; nothing in the middle of one. -/
def within : Nat → Text → Option Nat
  | 0, _ => some 0
  | _ + 1, [] => some 0
  | character + 1, c :: rest =>
    if IsEnd c then some 0
    else if character + 1 < utf16Len c then none
    else (within (character + 1 - utf16Len c) rest).map (· + c.utf8Size)

/-- The offset that a position denotes. -/
def denoted (text : Text) (line character : Nat) : Option Nat :=
  (splitAtLine line text).bind fun split => (within character split.2).map (size split.1 + ·)

/-- The carriage returns that no line feed follows. -/
def returns : Text → Nat
  | [] => 0
  | c :: rest => returns rest + if c = '\r' ∧ rest.head? ≠ some '\n' then 1 else 0

/-- The offset between two parts of a text is in the middle of a line's end. -/
def InEnd (before after : Text) : Prop := before.getLast? = some '\r' ∧ after.head? = some '\n'

/-- The position between two parts of a text: that many lines have ended, and that many units have come since. -/
def place (before : Text) : Nat × Nat :=
  (before.count '\n' + returns before, units (before.rtakeWhile fun c => ¬ IsEnd c))

@[simp] theorem units_nil : units [] = 0 := rfl

theorem units_cons (c : Char) (text : Text) : units (c :: text) = utf16Len c + units text := by
  rw [units, List.map_cons, List.sum_cons, units]

theorem units_append (text text' : Text) : units (text ++ text') = units text + units text' := by
  rw [units, List.map_append, List.sum_append, units, units]

@[simp] theorem size_nil : size [] = 0 := rfl

theorem size_cons (c : Char) (text : Text) : size (c :: text) = c.utf8Size + size text := by
  rw [size, encode_cons, List.length_append, String.length_utf8EncodeChar, size]

theorem size_append (text text' : Text) : size (text ++ text') = size text + size text' := by
  rw [size, encode_append, List.length_append, size, size]

theorem one_le_utf16Len (c : Char) : 1 ≤ utf16Len c := by
  rw [utf16Len]
  split_ifs <;> decide

theorem within_zero (text : Text) : within 0 text = some 0 := by cases text <;> rfl

theorem within_succ (character : Nat) (c : Char) (rest : Text) :
    within (character + 1) (c :: rest) =
      if IsEnd c then some 0
      else if character + 1 < utf16Len c then none
      else (within (character + 1 - utf16Len c) rest).map (· + c.utf8Size) := rfl

theorem within_end {c : Char} (ends : IsEnd c) (character : Nat) (rest : Text) : within character (c :: rest) = some 0 := by
  cases character with
  | zero => rfl
  | succ character => rw [within_succ, if_pos ends]

/-- The units of a part of a line come to its end. -/
theorem within_append {part : Text} (free : ∀ c ∈ part, ¬ IsEnd c) (character : Nat) (rest : Text) :
    within (units part + character) (part ++ rest) = (within character rest).map (size part + ·) := by
  induction part with
  | nil => simp
  | cons c part ih =>
    obtain ⟨here, others⟩ := List.forall_mem_cons.1 free
    have long := one_le_utf16Len c
    obtain ⟨more, count⟩ : ∃ more, units (c :: part) + character = more + 1 :=
      ⟨units (c :: part) + character - 1, by rw [units_cons]; omega⟩
    have left : more + 1 - utf16Len c = units part + character := by
      rw [units_cons] at count
      omega
    have room : ¬ more + 1 < utf16Len c := by
      rw [units_cons] at count
      omega
    rw [count, List.cons_append, within_succ, if_neg here, if_neg room, left, ih others, Option.map_map, size_cons]
    refine congrArg (Option.map · (within character rest)) (funext fun offset => ?_)
    rw [Function.comp_apply]
    omega

/-- A character within a line is not behind its end. -/
theorem within_le {character offset : Nat} {text : Text} (h : within character text = some offset) :
    offset ≤ size (text.takeWhile fun c => ¬ IsEnd c) := by
  induction text generalizing character offset with
  | nil =>
    cases character <;> cases h <;> exact Nat.le_refl _
  | cons c rest ih =>
    cases character with
    | zero =>
      cases h
      exact Nat.zero_le _
    | succ character =>
      rw [within_succ] at h
      split_ifs at h with ends
      · cases h
        exact Nat.zero_le _
      · obtain ⟨further, found, rfl⟩ := Option.map_eq_some_iff.1 h
        have le := ih found
        rw [List.takeWhile_cons_of_pos (by simpa using ends), size_cons]
        omega

theorem returns_cons (c : Char) (rest : Text) :
    returns (c :: rest) = returns rest + if c = '\r' ∧ rest.head? ≠ some '\n' then 1 else 0 := rfl

theorem returns_of_ne {c : Char} (other : c ≠ '\r') (rest : Text) : returns (c :: rest) = returns rest := by
  rw [returns_cons, if_neg fun both => other both.1, Nat.add_zero]

theorem returns_feed (rest : Text) : returns ('\r' :: '\n' :: rest) = returns rest := by
  rw [returns_cons, if_neg fun both => both.2 rfl, Nat.add_zero, returns_of_ne (by decide)]

theorem returns_alone {rest : Text} (alone : rest.head? ≠ some '\n') : returns ('\r' :: rest) = returns rest + 1 := by
  rw [returns_cons, if_pos ⟨rfl, alone⟩]

theorem returns_le_append (front text : Text) : returns text ≤ returns (front ++ text) := by
  induction front with
  | nil => exact Nat.le_refl _
  | cons c front ih =>
    rw [List.cons_append, returns_cons]
    omega

/-- Where no line feed stands, every carriage return is alone. -/
theorem returns_pos {text : Text} (mem : '\r' ∈ text) (none : '\n' ∉ text) : 0 < returns text := by
  induction text with
  | nil => cases mem
  | cons c text ih =>
    rcases List.mem_cons.1 mem with rfl | inside
    · rw [returns_alone fun first => none (List.mem_cons_of_mem _ (List.mem_of_mem_head? first))]
      omega
    · have some := ih inside fun feed => none (List.mem_cons_of_mem _ feed)
      rw [returns_cons]
      omega

/-- Lines are told apart by their line feeds and by the carriage returns that no line feed follows. -/
theorem splitAtLine_eq_some {line : Nat} {text before rest : Text} (h : splitAtLine line text = some (before, rest)) :
    text = before ++ rest ∧ before.count '\n' + returns before = line := by
  induction line, text using splitAtLine.induct generalizing before with
  | case1 text =>
    rw [splitAtLine] at h
    cases h
    exact ⟨rfl, rfl⟩
  | case2 line =>
    rw [splitAtLine] at h
    cases h
  | case3 line more ih =>
    rw [splitAtLine] at h
    obtain ⟨⟨front, back⟩, found, equal⟩ := Option.map_eq_some_iff.1 h
    cases equal
    obtain ⟨rfl, count⟩ := ih found
    refine ⟨rfl, ?_⟩
    rw [returns_feed, List.count_cons_of_ne (by decide), List.count_cons_self]
    dsimp only
    omega
  | case4 line c more other ends ih =>
    rw [splitAtLine.eq_4 _ _ _ other, if_pos ends] at h
    obtain ⟨⟨front, back⟩, found, equal⟩ := Option.map_eq_some_iff.1 h
    cases equal
    obtain ⟨rfl, count⟩ := ih found
    refine ⟨rfl, ?_⟩
    dsimp only
    rcases ends with rfl | rfl
    · rw [returns_of_ne (by decide), List.count_cons_self]
      omega
    · have alone : front.head? ≠ some '\n' := by
        intro first
        obtain ⟨more, rfl⟩ := List.head?_eq_some_iff.1 first
        exact other _ rfl rfl
      rw [returns_alone alone, List.count_cons_of_ne (by decide)]
      omega
  | case5 line c more other ends ih =>
    rw [splitAtLine.eq_4 _ _ _ other, if_neg ends] at h
    obtain ⟨⟨front, back⟩, found, equal⟩ := Option.map_eq_some_iff.1 h
    cases equal
    obtain ⟨rfl, count⟩ := ih found
    obtain ⟨feed, return_⟩ := not_or.1 ends
    refine ⟨rfl, ?_⟩
    rw [returns_of_ne return_, List.count_cons_of_ne feed]
    exact count

theorem splitAtLine_feed (line : Nat) (rest : Text) : splitAtLine (line + 1) ('\r' :: '\n' :: rest) =
    (splitAtLine (line + 1) ('\n' :: rest)).map fun split => ('\r' :: split.1, split.2) := by
  rw [splitAtLine, splitAtLine.eq_4 _ _ _ (fun _ other => absurd other (by decide)), if_pos (by decide), Option.map_map]
  rfl

/-- Behind the last line end of a part of the text begins the line that the part ends in. -/
theorem splitAtLine_append (before : Text) {after : Text} (apart : ¬ InEnd before after) : ∃ front part,
    before = front ++ part ∧ (∀ c ∈ part, ¬ IsEnd c) ∧ (∀ c ∈ front.getLast?, IsEnd c) ∧
      splitAtLine (before.count '\n' + returns before) (before ++ after) = some (front, part ++ after) := by
  induction before with
  | nil => exact ⟨[], [], rfl, List.forall_mem_nil _, (nofun), splitAtLine.eq_1 after⟩
  | cons c rest ih =>
    have apart' : ¬ InEnd rest after := by
      rintro ⟨last, first⟩
      refine apart ⟨?_, first⟩
      rw [List.getLast?_cons, last]
      rfl
    obtain ⟨front, part, whole, free, last, split⟩ := ih apart'
    have last' : ∀ d ∈ (c :: front).getLast?, (front = [] → IsEnd c) → IsEnd d := by
      intro d mem first
      rw [List.getLast?_cons] at mem
      cases behind : front.getLast? with
      | none =>
        rw [behind] at mem
        cases mem
        exact first (List.getLast?_eq_none_iff.1 behind)
      | some d' =>
        rw [behind] at mem
        cases mem
        exact last d' behind
    by_cases ends : IsEnd c
    · refine ⟨c :: front, part, by rw [whole, List.cons_append], free, fun d mem => last' d mem fun _ => ends, ?_⟩
      by_cases both : c = '\r' ∧ rest.head? = some '\n'
      · obtain ⟨rfl, first⟩ := both
        obtain ⟨more, rfl⟩ := List.head?_eq_some_iff.1 first
        rw [returns_feed, List.count_cons_of_ne (by decide)]
        rw [returns_of_ne (by decide), List.count_cons_self, Nat.add_right_comm] at split
        rw [List.count_cons_self, Nat.add_right_comm, List.cons_append, List.cons_append, splitAtLine_feed,
          ← List.cons_append, split]
        rfl
      · have other : ∀ more, c = '\r' → rest ++ after = '\n' :: more → False := by
          intro more return_ first
          cases rest with
          | nil => exact apart ⟨by rw [return_]; rfl, by rw [show after = _ from first]; rfl⟩
          | cons d rest =>
            rw [List.cons_append, List.cons.injEq] at first
            exact both ⟨return_, by rw [first.1]; rfl⟩
        have count : (c :: rest).count '\n' + returns (c :: rest) = rest.count '\n' + returns rest + 1 := by
          rcases ends with rfl | rfl
          · rw [returns_of_ne (by decide), List.count_cons_self]
            omega
          · rw [returns_alone fun first => both ⟨rfl, first⟩, List.count_cons_of_ne (by decide)]
            omega
        rw [count, List.cons_append, splitAtLine.eq_4 _ _ _ other, if_pos ends, split]
        rfl
    · obtain ⟨feed, return_⟩ := not_or.1 ends
      have count : (c :: rest).count '\n' + returns (c :: rest) = rest.count '\n' + returns rest := by
        rw [returns_of_ne return_, List.count_cons_of_ne feed]
      rw [count]
      obtain ⟨-, reached⟩ := splitAtLine_eq_some split
      cases ended : rest.count '\n' + returns rest with
      | zero =>
        rw [ended, splitAtLine] at split
        have empty : front = [] := (Prod.mk.inj (Option.some.inj split)).1.symm
        rw [empty, List.nil_append] at whole
        exact ⟨[], c :: part, by rw [whole]; rfl, List.forall_mem_cons.2 ⟨ends, free⟩, (nofun),
          by rw [whole, splitAtLine]⟩
      | succ line =>
        have some_left : front ≠ [] := by
          rintro rfl
          rw [ended] at reached
          cases reached
        refine ⟨c :: front, part, by rw [whole, List.cons_append], free,
          fun d mem => last' d mem fun empty => absurd empty some_left, ?_⟩
        rw [List.cons_append, splitAtLine.eq_4 _ _ _ (fun _ equal => absurd equal return_), if_neg ends, ← ended, split]
        rfl

/-- The place of an offset denotes it, unless the offset is in the middle of a line's end. -/
theorem denoted_place {before after : Text} (apart : ¬ InEnd before after) :
    denoted (before ++ after) (place before).1 (place before).2 = some (size before) := by
  obtain ⟨front, part, rfl, free, last, split⟩ := splitAtLine_append before apart
  have line : (front ++ part).rtakeWhile (fun c => ¬ IsEnd c) = part := by
    rw [List.rtakeWhile, List.reverse_append, List.takeWhile_append_of_pos (by simpa using free)]
    have stop : front.reverse.takeWhile (fun c => ¬ IsEnd c) = [] := by
      cases back : front.reverse with
      | nil => rfl
      | cons d more =>
        have ends : IsEnd d := last d (by rw [List.getLast?_eq_head?_reverse, back]; rfl)
        rw [List.takeWhile_cons_of_neg (by simpa using ends)]
    rw [stop, List.append_nil, List.reverse_reverse]
  rw [denoted, place, line, split, Option.bind_some]
  dsimp only
  rw [← Nat.add_zero (units part), within_append free, within_zero, size_append]
  rfl

end SupraHarness.Positions
