import SupraHarness.Lib.Positions

/-!
# Offsets and positions

The client turns byte offsets into the positions the protocol speaks and positions back into offsets. Both walks take
line feeds alone for the ends of lines, but a line that is read back also stops at a carriage return. So an offset is
read back unless a carriage return stands before it on its line; and a position is read as the protocol means it unless
a carriage return ends a line before it.
-/
namespace SupraHarness.Lsp

open Positions

/-- The walk of `position_of` from one symbol of the text on; nothing where a counter overflows. -/
def positionFrom (byte : Nat) : Nat → Nat → Nat → Text → Option (Nat × Nat)
  | _, line, character, [] => some (line, character)
  | index, line, character, symbol :: rest =>
    if byte ≤ index then some (line, character)
    else if symbol = '\n' then
      if line + 1 < 2 ^ 32 then positionFrom byte (index + symbol.utf8Size) (line + 1) 0 rest else none
    else if character + utf16Len symbol < 2 ^ 32 then
      positionFrom byte (index + symbol.utf8Size) line (character + utf16Len symbol) rest
    else none

/-- The line and UTF-16 character for one byte offset. -/
def positionOf (text : Text) (byte : Nat) : Option (Nat × Nat) := positionFrom byte 0 0 0 text

/-- The first walk of `byte_offset`: the line it comes to, and where the line it looks for starts, with the text from
there on. -/
def seekLine (line : Nat) : Nat → Nat → Nat → Text → Text → Option (Nat × Nat × Text)
  | _, current, start, tail, [] => some (current, start, tail)
  | index, current, start, tail, symbol :: rest =>
    if line < current then some (current, start, tail)
    else if symbol = '\n' then
      if current + 1 < 2 ^ 32 then
        if current + 1 ≤ line then seekLine line (index + 1) (current + 1) (index + 1) rest rest
        else seekLine line (index + 1) (current + 1) start tail rest
      else none
    else seekLine line (index + symbol.utf8Size) current start tail rest

/-- The second walk of `byte_offset`, over the text from the start of the line on. -/
def seekUnit (character : Nat) : Nat → Nat → Text → Option Nat
  | index, _, [] => some index
  | index, units, symbol :: rest =>
    if symbol = '\n' ∨ symbol = '\r' then some index
    else if character ≤ units then some index
    else if units + utf16Len symbol < 2 ^ 32 then
      seekUnit character (index + symbol.utf8Size) (units + utf16Len symbol) rest
    else none

/-- The byte offset for one line and UTF-16 character, if the text has the line; nothing where a counter overflows. -/
def byteOffset (text : Text) (line character : Nat) : Option (Option Nat) :=
  match seekLine line 0 0 0 text text with
  | none => none
  | some (current, start, tail) =>
    if current < line then some none else (seekUnit character start 0 tail).map some

/-! ## Lines that end at line feeds -/

/-- What stands before a line and the rest of the text, where line feeds alone end lines. -/
def splitAtFeed : Nat → Text → Option (Text × Text)
  | 0, text => some ([], text)
  | _ + 1, [] => none
  | line + 1, c :: rest =>
    if c = '\n' then (splitAtFeed line rest).map fun split => (c :: split.1, split.2)
    else (splitAtFeed (line + 1) rest).map fun split => (c :: split.1, split.2)

/-- What stands behind the last line feed. -/
def lastLine (text : Text) : Text := text.rtakeWhile fun c => c ≠ '\n'

theorem splitAtFeed_cons (line : Nat) (c : Char) (rest : Text) :
    splitAtFeed (line + 1) (c :: rest) =
      if c = '\n' then (splitAtFeed line rest).map fun split => (c :: split.1, split.2)
      else (splitAtFeed (line + 1) rest).map fun split => (c :: split.1, split.2) := rfl

theorem splitAtFeed_eq_some {line : Nat} {text before rest : Text} (h : splitAtFeed line text = some (before, rest)) :
    text = before ++ rest := by
  induction text generalizing line before with
  | nil =>
    cases line <;> cases h
    rfl
  | cons c text ih =>
    cases line with
    | zero =>
      cases h
      rfl
    | succ line =>
      rw [splitAtFeed_cons] at h
      split_ifs at h
      all_goals
        obtain ⟨⟨front, back⟩, found, equal⟩ := Option.map_eq_some_iff.1 h
        cases equal
        exact congrArg (c :: ·) (ih found)

/-- A part of the text takes its own line feeds off the lines that are looked for. -/
theorem splitAtFeed_append (line : Nat) (front rest : Text) : splitAtFeed (front.count '\n' + (line + 1)) (front ++ rest) =
    (splitAtFeed (line + 1) rest).map fun split => (front ++ split.1, split.2) := by
  induction front with
  | nil => simp
  | cons c front ih =>
    rw [List.cons_append]
    by_cases feed : c = '\n'
    · rw [feed, List.count_cons_self, show front.count '\n' + 1 + (line + 1) = front.count '\n' + (line + 1) + 1 by omega,
        splitAtFeed_cons, if_pos rfl, ih, Option.map_map]
      rfl
    · rw [List.count_cons_of_ne feed, ← Nat.add_assoc, splitAtFeed_cons, if_neg feed, Nat.add_assoc, ih, Option.map_map]
      rfl

/-- A text without line feeds is a last line; any other one has a line feed before its last line. -/
theorem exists_lastLine (text : Text) : (lastLine text = text ∧ text.count '\n' = 0) ∨
    ∃ front, text = front ++ '\n' :: lastLine text ∧ text.count '\n' = front.count '\n' + 1 := by
  have none : (lastLine text).count '\n' = 0 := by
    rw [List.count_eq_zero]
    exact fun mem => absurd (List.mem_rtakeWhile_imp mem) (by simp)
  have whole : text.rdropWhile (fun c => c ≠ '\n') ++ lastLine text = text := List.rdropWhile_append_rtakeWhile
  by_cases empty : text.rdropWhile (fun c => c ≠ '\n') = []
  · rw [empty, List.nil_append] at whole
    exact .inl ⟨whole, whole ▸ none⟩
  · have last := List.rdropWhile_last_not _ _ empty
    have feed : (text.rdropWhile fun c => c ≠ '\n').getLast empty = '\n' := by simpa using last
    have split := List.dropLast_append_getLast empty
    rw [feed] at split
    refine .inr ⟨(text.rdropWhile fun c => c ≠ '\n').dropLast, ?_, ?_⟩
    · rw [← List.singleton_append, ← List.append_assoc, split, whole]
    · conv_lhs => rw [← whole, ← split]
      rw [List.count_append, List.count_append, none, List.count_singleton_self]

theorem feed_notMem_lastLine (text : Text) : '\n' ∉ lastLine text :=
  fun mem => absurd (List.mem_rtakeWhile_imp mem) (by simp)

/-- The line of an offset starts behind the last line feed before it. -/
theorem splitAtFeed_lastLine (before after : Text) : ∃ front, before = front ++ lastLine before ∧
    splitAtFeed (before.count '\n') (before ++ after) = some (front, lastLine before ++ after) := by
  rcases exists_lastLine before with ⟨whole, none⟩ | ⟨front, whole, count⟩
  · refine ⟨[], by rw [whole, List.nil_append], ?_⟩
    rw [none, splitAtFeed, whole]
  · refine ⟨front ++ ['\n'], by rw [List.append_assoc, List.singleton_append, ← whole], ?_⟩
    rw [count]
    conv_lhs => rw [whole]
    rw [List.append_assoc, List.cons_append, ← Nat.zero_add 1, splitAtFeed_append, splitAtFeed, if_pos rfl, splitAtFeed]
    rfl

/-! ## The first walk -/

theorem seekLine_past {line index current start : Nat} {tail rest : Text} (past : line < current) :
    seekLine line index current start tail rest = some (current, start, tail) := by
  cases rest with
  | nil => rfl
  | cons c rest => rw [seekLine, if_pos past]

/-- On the line that is looked for, the walk goes on to the line feed behind it. -/
theorem seekLine_here {line index start : Nat} {tail rest : Text} :
    seekLine line index line start tail rest =
      if '\n' ∈ rest then if line + 1 < 2 ^ 32 then some (line + 1, start, tail) else none
      else some (line, start, tail) := by
  induction rest generalizing index with
  | nil => rfl
  | cons c rest ih =>
    rw [seekLine, if_neg (Nat.lt_irrefl _)]
    by_cases feed : c = '\n'
    · have mem : '\n' ∈ c :: rest := feed ▸ List.mem_cons_self
      rw [if_pos feed, if_neg (Nat.not_succ_le_self line), seekLine_past (Nat.lt_succ_self line), if_pos mem]
    · rw [if_neg feed, ih]
      simp [Ne.symm feed]

/-- Before it, the walk comes to its start or to the end of the text. -/
theorem seekLine_before {line index current start : Nat} {tail rest : Text} (bound : line < 2 ^ 32) (before : current < line) :
    (splitAtFeed (line - current) rest = none ∧
        ∃ reached start' tail', seekLine line index current start tail rest = some (reached, start', tail') ∧ reached < line) ∨
      ∃ front back, splitAtFeed (line - current) rest = some (front, back) ∧
        seekLine line index current start tail rest = seekLine line (index + size front) line (index + size front) back back := by
  induction rest generalizing index current start tail with
  | nil =>
    obtain ⟨more, left⟩ := Nat.exists_eq_add_of_lt before
    have split : splitAtFeed (line - current) [] = none := by
      rw [left, show current + more + 1 - current = more + 1 by omega, splitAtFeed]
    exact .inl ⟨split, current, start, tail, rfl, before⟩
  | cons c rest ih =>
    obtain ⟨more, left⟩ := Nat.exists_eq_add_of_lt before
    have ahead : line - current = more + 1 := by omega
    rw [seekLine, if_neg (Nat.not_lt.2 (Nat.le_of_lt before)), ahead, splitAtFeed]
    by_cases feed : c = '\n'
    · have width : c.utf8Size = 1 := by
        rw [feed]
        rfl
      rw [if_pos feed, if_pos feed, if_pos (by omega), if_pos (by omega)]
      by_cases here : current + 1 = line
      · have none_left : more = 0 := by omega
        refine .inr ⟨[c], rest, by rw [none_left, splitAtFeed]; rfl, ?_⟩
        rw [size_cons, size_nil, width, here]
      · have next : line - (current + 1) = more := by omega
        rcases ih (by omega : current + 1 < line) with ⟨split, ended⟩ | ⟨front, back, split, same⟩
        · rw [next] at split
          exact .inl ⟨by rw [split]; rfl, ended⟩
        · rw [next] at split
          refine .inr ⟨c :: front, back, by rw [split]; rfl, ?_⟩
          rw [same, size_cons, width, Nat.add_assoc]
    · rw [if_neg feed, if_neg feed]
      rcases ih before with ⟨split, ended⟩ | ⟨front, back, split, same⟩
      · rw [ahead] at split
        exact .inl ⟨by rw [split]; rfl, ended⟩
      · rw [ahead] at split
        refine .inr ⟨c :: front, back, by rw [split]; rfl, ?_⟩
        rw [same, size_cons, Nat.add_assoc]

/-- A line that the text has is read from its start on. -/
theorem byteOffset_of_split {text front rest : Text} {line : Nat} (bound : line < 2 ^ 32)
    (split : splitAtFeed line text = some (front, rest)) (character : Nat) : byteOffset text line character =
      if '\n' ∈ rest → line + 1 < 2 ^ 32 then (seekUnit character (size front) 0 rest).map some else none := by
  have here : seekLine line 0 0 0 text text = seekLine line (size front) line (size front) rest rest := by
    cases line with
    | zero =>
      rw [splitAtFeed] at split
      cases split
      rfl
    | succ line =>
      rcases seekLine_before bound (Nat.succ_pos line) with ⟨none, -⟩ | ⟨front', rest', split', same⟩
      · rw [Nat.sub_zero, split] at none
        cases none
      · rw [Nat.sub_zero, split] at split'
        cases split'
        rw [same, Nat.zero_add]
  rw [byteOffset, here, seekLine_here]
  by_cases feed : '\n' ∈ rest
  · rw [if_pos feed]
    by_cases room : line + 1 < 2 ^ 32
    · rw [if_pos room, if_pos fun _ => room]
      dsimp only
      rw [if_neg (by omega)]
    · rw [if_neg room, if_neg fun all => room (all feed)]
  · rw [if_neg feed, if_pos fun mem => absurd mem feed]
    dsimp only
    rw [if_neg (Nat.lt_irrefl _)]

/-- A line that the text does not have has no offset. -/
theorem byteOffset_of_none {text : Text} {line : Nat} (bound : line < 2 ^ 32) (none : splitAtFeed line text = none)
    (character : Nat) : byteOffset text line character = some .none := by
  cases line with
  | zero =>
    rw [splitAtFeed] at none
    cases none
  | succ line =>
    rcases seekLine_before bound (Nat.succ_pos line) with ⟨-, reached, start, tail, same, less⟩ | ⟨front, rest, split, -⟩
    · rw [byteOffset, same]
      dsimp only
      rw [if_pos less]
    · rw [Nat.sub_zero, none] at split
      cases split

/-! ## The second walk -/

theorem seekUnit_ge {character index units offset : Nat} {rest : Text}
    (h : seekUnit character index units rest = some offset) : index ≤ offset := by
  induction rest generalizing index units with
  | nil =>
    cases h
    exact Nat.le_refl _
  | cons c rest ih =>
    rw [seekUnit] at h
    split_ifs at h
    · cases h
      exact Nat.le_refl _
    · cases h
      exact Nat.le_refl _
    · exact Nat.le_trans (Nat.le_add_right _ _) (ih h)

/-- A character is read as the position has it. -/
theorem seekUnit_within {character index units offset : Nat} {rest : Text} (bound : character < 2 ^ 32) (le : units ≤ character)
    (h : within (character - units) rest = some offset) :
    seekUnit character index units rest = some (index + offset) := by
  induction rest generalizing index units offset with
  | nil =>
    have zero : offset = 0 := by
      cases left : character - units <;> rw [left, within] at h <;> exact (Option.some.inj h).symm
    rw [seekUnit, zero, Nat.add_zero]
  | cons c rest ih =>
    rw [seekUnit]
    by_cases ends : c = '\n' ∨ c = '\r'
    · rw [within_end ends] at h
      cases h
      rw [if_pos ends, Nat.add_zero]
    · rw [if_neg ends]
      by_cases there : character ≤ units
      · rw [Nat.sub_eq_zero_of_le there, within] at h
        cases h
        rw [if_pos there, Nat.add_zero]
      · obtain ⟨more, left⟩ : ∃ more, character - units = more + 1 := ⟨character - units - 1, by omega⟩
        rw [left, within, if_neg (show ¬ IsEnd c from ends)] at h
        split_ifs at h with middle
        obtain ⟨further, found, rfl⟩ := Option.map_eq_some_iff.1 h
        have next : more + 1 - utf16Len c = character - (units + utf16Len c) := by omega
        rw [next] at found
        rw [if_neg there, if_pos (by omega), ih (by omega) found]
        exact congrArg some (by omega)

/-- A line without line ends before the character is walked to its end. -/
theorem seekUnit_line {part : Text} (free : ∀ c ∈ part, ¬ IsEnd c) {start : Nat} (bound : start + units part < 2 ^ 32)
    (index : Nat) (after : Text) :
    seekUnit (start + units part) index start (part ++ after) = some (index + size part) := by
  have rest : within (start + units part - start) (part ++ after) = some (size part) := by
    rw [Nat.add_sub_cancel_left, ← Nat.add_zero (units part), within_append free, within_zero]
    rfl
  exact seekUnit_within bound (Nat.le_add_right _ _) rest

/-- A carriage return stops it. -/
theorem seekUnit_return {part : Text} (mem : '\r' ∈ part) {character index start offset : Nat} {after : Text}
    (h : seekUnit character index start (part ++ after) = some offset) : offset < index + size part := by
  induction part generalizing index start with
  | nil => cases mem
  | cons c part ih =>
    have wide := c.utf8Size_pos
    rw [List.cons_append, seekUnit] at h
    rw [size_cons]
    split_ifs at h with ends there
    · cases h
      omega
    · cases h
      omega
    · have other : '\r' ∈ part := (List.mem_cons.1 mem).resolve_left fun equal => ends (.inr equal.symm)
      have less := ih other h
      omega

/-! ## There and back -/

/-- One round of `position_of` before the offset. -/
def positionStep (place : Nat × Nat) (symbol : Char) : Option (Nat × Nat) :=
  if symbol = '\n' then if place.1 + 1 < 2 ^ 32 then some (place.1 + 1, 0) else none
  else if place.2 + utf16Len symbol < 2 ^ 32 then some (place.1, place.2 + utf16Len symbol) else none

/-- The counters of `position_of` hold what they count up to the end of a text. -/
structure Fits (before : Text) : Prop where
  lines : before.count '\n' < 2 ^ 32
  characters : ∀ front, front <+: before → units (lastLine front) < 2 ^ 32

theorem positionFrom_append (before after : Text) (index line character : Nat) :
    positionFrom (index + size before) index line character (before ++ after) =
      before.foldlM positionStep (line, character) := by
  induction before generalizing index line character with
  | nil =>
    cases after with
    | nil => rfl
    | cons c after =>
      rw [List.nil_append, positionFrom, size_nil, Nat.add_zero, if_pos (Nat.le_refl _)]
      rfl
  | cons c before ih =>
    have wide := c.utf8Size_pos
    rw [List.cons_append, positionFrom, if_neg (by rw [size_cons]; omega), List.foldlM_cons, positionStep, size_cons,
      ← Nat.add_assoc]
    dsimp only
    split_ifs
    · exact ih _ _ _
    · rfl
    · exact ih _ _ _
    · rfl

theorem lastLine_feed (before : Text) : lastLine (before ++ ['\n']) = [] :=
  List.rtakeWhile_concat_neg _ _ _ (by decide)

theorem lastLine_concat {c : Char} (other : c ≠ '\n') (before : Text) : lastLine (before ++ [c]) = lastLine before ++ [c] :=
  List.rtakeWhile_concat_pos _ _ _ (by simpa using other)

theorem fits_feed (before : Text) : Fits (before ++ ['\n']) ↔ Fits before ∧ before.count '\n' + 1 < 2 ^ 32 := by
  have count : (before ++ ['\n']).count '\n' = before.count '\n' + 1 := by
    rw [List.count_append, List.count_singleton_self]
  constructor
  · intro fits
    have room := fits.lines
    rw [count] at room
    exact ⟨⟨by omega, fun front front_le => fits.characters front (front_le.trans (List.prefix_append _ _))⟩, room⟩
  · rintro ⟨fits, room⟩
    refine ⟨by rwa [count], fun front front_le => ?_⟩
    rcases List.prefix_concat_iff.1 front_le with rfl | shorter
    · rw [lastLine_feed]
      decide
    · exact fits.characters front shorter

theorem fits_concat {c : Char} (other : c ≠ '\n') (before : Text) :
    Fits (before ++ [c]) ↔ Fits before ∧ units (lastLine before) + utf16Len c < 2 ^ 32 := by
  have count : (before ++ [c]).count '\n' = before.count '\n' := by
    rw [List.count_append, List.count_cons_of_ne other, List.count_nil, Nat.add_zero]
  have last : units (lastLine (before ++ [c])) = units (lastLine before) + utf16Len c := by
    rw [lastLine_concat other, units_append, units_cons, units_nil, Nat.add_zero]
  constructor
  · intro fits
    have lines := fits.lines
    rw [count] at lines
    refine ⟨⟨lines, fun front front_le => fits.characters front (front_le.trans (List.prefix_append _ _))⟩, ?_⟩
    rw [← last]
    exact fits.characters _ (List.prefix_refl _)
  · rintro ⟨fits, room⟩
    refine ⟨by rw [count]; exact fits.lines, fun front front_le => ?_⟩
    rcases List.prefix_concat_iff.1 front_le with rfl | shorter
    · rwa [last]
    · exact fits.characters front shorter

/-- The walk counts the line feeds and the units behind the last of them. -/
theorem foldlM_positionStep {before : Text} {place : Nat × Nat} : before.foldlM positionStep (0, 0) = some place ↔
    Fits before ∧ place = (before.count '\n', units (lastLine before)) := by
  induction before using List.reverseRecOn generalizing place with
  | nil =>
    constructor
    · intro equal
      cases equal
      exact ⟨⟨by decide, fun front front_le => by rw [List.prefix_nil.1 front_le]; decide⟩, rfl⟩
    · rintro ⟨-, rfl⟩
      rfl
  | append_singleton before c ih =>
    have step : (before ++ [c]).foldlM positionStep (0, 0) = some place ↔
        Fits before ∧ positionStep (before.count '\n', units (lastLine before)) c = some place := by
      rw [List.foldlM_append, Option.bind_eq_bind, Option.bind_eq_some_iff]
      constructor
      · rintro ⟨mid, reached, last⟩
        obtain ⟨fits, rfl⟩ := ih.1 reached
        rw [List.foldlM_cons] at last
        exact ⟨fits, by simpa using last⟩
      · rintro ⟨fits, last⟩
        refine ⟨_, ih.2 ⟨fits, rfl⟩, ?_⟩
        rw [List.foldlM_cons]
        simpa using last
    rw [step, positionStep]
    by_cases feed : c = '\n'
    · rw [feed, fits_feed, lastLine_feed, List.count_append, List.count_singleton_self, if_pos rfl]
      dsimp only
      split_ifs with room
      · rw [Option.some_inj]
        exact ⟨fun both => ⟨⟨both.1, room⟩, both.2.symm⟩, fun all => ⟨all.1.1, all.2.symm⟩⟩
      · exact ⟨fun both => absurd both.2 nofun, fun all => absurd all.1.2 room⟩
    · rw [fits_concat feed, lastLine_concat feed, units_append, units_cons, units_nil, Nat.add_zero, List.count_append,
        List.count_cons_of_ne feed, List.count_nil, Nat.add_zero, if_neg feed]
      dsimp only
      split_ifs with room
      · rw [Option.some_inj]
        exact ⟨fun both => ⟨⟨both.1, room⟩, both.2.symm⟩, fun all => ⟨all.1.1, all.2.symm⟩⟩
      · exact ⟨fun both => absurd both.2 nofun, fun all => absurd all.1.2 room⟩

theorem positionOf_append {before after : Text} {place : Nat × Nat} :
    positionOf (before ++ after) (size before) = some place ↔
      Fits before ∧ place = (before.count '\n', units (lastLine before)) := by
  rw [positionOf, ← Nat.zero_add (size before), positionFrom_append, foldlM_positionStep]

/-- An offset comes back unless a carriage return stands before it on its line, or a counter overflows. -/
theorem there_and_back (before after : Text) :
    ((positionOf (before ++ after) (size before)).bind fun place => byteOffset (before ++ after) place.1 place.2) =
        some (some (size before)) ↔
      Fits before ∧ ('\n' ∈ after → before.count '\n' + 1 < 2 ^ 32) ∧ '\r' ∉ lastLine before := by
  obtain ⟨front, whole, split⟩ := splitAtFeed_lastLine before after
  have length : size before = size front + size (lastLine before) := by
    conv_lhs => rw [whole, size_append]
  have mem : '\n' ∈ lastLine before ++ after ↔ '\n' ∈ after := by
    rw [List.mem_append, or_iff_right (feed_notMem_lastLine before)]
  rw [Option.bind_eq_some_iff]
  constructor
  · rintro ⟨place, reached, back⟩
    obtain ⟨fits, rfl⟩ := positionOf_append.1 reached
    rw [byteOffset_of_split fits.lines split] at back
    simp only [mem] at back
    split_ifs at back with room
    obtain ⟨offset, found, equal⟩ := Option.map_eq_some_iff.1 back
    cases Option.some.inj equal
    refine ⟨fits, room, fun stop => ?_⟩
    have less := seekUnit_return stop found
    omega
  · rintro ⟨fits, room, smooth⟩
    refine ⟨_, positionOf_append.2 ⟨fits, rfl⟩, ?_⟩
    have free : ∀ c ∈ lastLine before, ¬ IsEnd c := by
      rintro c inside (rfl | rfl)
      · exact feed_notMem_lastLine before inside
      · exact smooth inside
    have bound : 0 + units (lastLine before) < 2 ^ 32 := by
      rw [Nat.zero_add]
      exact fits.characters before (List.prefix_refl _)
    have walked := seekUnit_line free bound (size front) after
    rw [Nat.zero_add] at walked
    rw [byteOffset_of_split fits.lines split, if_pos fun inside => room (mem.1 inside), walked, ← length]
    rfl

theorem lastLine_smooth {before : Text} (none : returns before = 0) : '\r' ∉ lastLine before := by
  intro mem
  obtain ⟨front, whole, -⟩ := splitAtFeed_lastLine before []
  have some := returns_pos mem (feed_notMem_lastLine before)
  have le := returns_le_append front (lastLine before)
  rw [← whole] at le
  omega

theorem rtakeWhile_isEnd {before : Text} (smooth : '\r' ∉ lastLine before) :
    (before.rtakeWhile fun c => ¬ IsEnd c) = lastLine before := by
  induction before using List.reverseRecOn with
  | nil => rfl
  | append_singleton before c ih =>
    by_cases feed : c = '\n'
    · rw [feed, lastLine_feed]
      exact List.rtakeWhile_concat_neg _ _ _ (by decide)
    · rw [lastLine_concat feed, List.mem_append, not_or, List.mem_singleton] at smooth
      have free : ¬ IsEnd c := not_or.2 ⟨feed, Ne.symm smooth.2⟩
      rw [lastLine_concat feed, List.rtakeWhile_concat_pos _ _ _ (by simpa using free), ih smooth.1]

/-- The position is the one of the protocol unless a carriage return ends a line before the offset, or a counter
overflows. -/
theorem positionOf_place (before after : Text) :
    positionOf (before ++ after) (size before) = some (Positions.place before) ↔ Fits before ∧ returns before = 0 := by
  rw [positionOf_append, Positions.place, Prod.mk.injEq]
  constructor
  · rintro ⟨fits, lines, -⟩
    exact ⟨fits, by omega⟩
  · rintro ⟨fits, none⟩
    exact ⟨fits, by omega, by rw [rtakeWhile_isEnd (lastLine_smooth none)]⟩

end SupraHarness.Lsp
