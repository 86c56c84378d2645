import SupraHarness.Lib.Trim
import SupraHarness.Log.Hiding

/-!
# What a match is

A match keeps the text in front of what it hides, the name of a field or the literal of a shape, and the
quote behind it. At a character with which no pattern begins, or inside a word, there is none, and the
pass copies.
-/
namespace SupraHarness.Redact

open Str Scan

/-! ## The rules, one by one -/

theorem matchAt_eq_none {previous : Option Char} {rest : List Char} :
    matchAt previous rest = none ↔
      matchPem rest = none ∧ matchField previous rest = none ∧ matchShape previous rest = none := by
  rw [matchAt, Option.or_eq_none_iff, Option.or_eq_none_iff, and_assoc]

theorem matchPem_eq_none {rest : List Char} : matchPem rest = none ↔ ¬ pemBegin <+: rest := by
  rw [matchPem, ← List.isPrefixOf_iff_prefix]
  split_ifs with begins
  · exact iff_of_false (by rintro ⟨⟩) fun absent => absent begins
  · exact iff_of_true rfl begins

/-- A quoted name and a colon, with the white space that a formatter may insert. -/
def JsonHead (field head : List Char) : Prop :=
  ∃ gap gap', Trim.Blank isWhitespace gap ∧ Trim.Blank isWhitespace gap' ∧
    head = '"' :: field ++ '"' :: gap ++ ':' :: gap'

theorem dropWhile_gap {gap rest : List Char} {c : Char} (blank : Trim.Blank isWhitespace gap)
    (visible : isWhitespace c = false) : (gap ++ c :: rest).dropWhile isWhitespace = c :: rest := by
  rw [List.dropWhile_append_of_pos blank, List.dropWhile_cons_of_neg (by simp [visible])]

theorem stripJsonName_head {field head rest : List Char} {c : Char} (named : JsonHead field head)
    (visible : isWhitespace c = false) : stripJsonName (head ++ c :: rest) field = some (c :: rest) := by
  obtain ⟨gap, gap', blank, blank', rfl⟩ := named
  have opened : stripPrefix ['"'] ('"' :: field ++ '"' :: gap ++ ':' :: gap' ++ c :: rest) =
      some (field ++ '"' :: (gap ++ ':' :: (gap' ++ c :: rest))) := stripPrefix_eq_some.2 (by simp)
  have named : stripPrefix field (field ++ '"' :: (gap ++ ':' :: (gap' ++ c :: rest))) =
      some ('"' :: (gap ++ ':' :: (gap' ++ c :: rest))) := stripPrefix_eq_some.2 rfl
  have closed : stripPrefix ['"'] ('"' :: (gap ++ ':' :: (gap' ++ c :: rest))) =
      some (gap ++ ':' :: (gap' ++ c :: rest)) := stripPrefix_eq_some.2 rfl
  have colon : stripPrefix [':'] (':' :: (gap' ++ c :: rest)) = some (gap' ++ c :: rest) :=
    stripPrefix_eq_some.2 rfl
  rw [stripJsonName, opened, Option.bind_some, named, Option.bind_some, closed, Option.bind_some,
    dropWhile_gap blank (by decide), colon, Option.map_some, dropWhile_gap blank' visible]

theorem stripJsonName_head_of_eq_some {field rest after : List Char}
    (stripped : stripJsonName rest field = some after) : ∃ head, JsonHead field head ∧ rest = head ++ after := by
  obtain ⟨afterClose, afterColon, rfl, colon, rfl⟩ := stripJsonName_eq_some stripped
  refine ⟨'"' :: field ++ '"' :: afterClose.takeWhile isWhitespace ++ ':' :: afterColon.takeWhile isWhitespace,
    ⟨_, _, fun c mem => List.mem_takeWhile_imp mem, fun c mem => List.mem_takeWhile_imp mem, rfl⟩, ?_⟩
  have before : afterClose.takeWhile isWhitespace ++ ':' :: afterColon = afterClose := by
    rw [← colon, List.takeWhile_append_dropWhile]
  have behind : afterColon.takeWhile isWhitespace ++ afterColon.dropWhile isWhitespace = afterColon :=
    List.takeWhile_append_dropWhile
  simp only [List.append_assoc, List.cons_append, behind, before]

/-- A value ends before the quote that closes it. -/
theorem closingQuote_split {body : List Char} {n : Nat} (close : closingQuote body = some n) :
    ∃ value after, body = value ++ '"' :: after ∧ value.length = n := by
  induction body using closingQuote.induct generalizing n with
  | case1 => cases close
  | case2 => cases close
  | case3 c body ih =>
    rw [closingQuote_escape] at close
    obtain ⟨m, found, rfl⟩ := Option.map_eq_some_iff.1 close
    obtain ⟨value, after, rfl, rfl⟩ := ih found
    exact ⟨'\\' :: c :: value, after, rfl, rfl⟩
  | case4 body _ =>
    rw [closingQuote_quote] at close
    cases close
    exact ⟨[], body, rfl, rfl⟩
  | case5 c body back quote ih =>
    rw [closingQuote_other back quote] at close
    obtain ⟨m, found, rfl⟩ := Option.map_eq_some_iff.1 close
    obtain ⟨value, after, rfl, rfl⟩ := ih found
    exact ⟨c :: value, after, rfl, rfl⟩

theorem matchJsonField_eq_some {rest field text : List Char} {n : Nat} :
    matchJsonField rest field = some (n, text) ↔
      ∃ head value after, JsonHead field head ∧ rest = head ++ '"' :: (value ++ '"' :: after) ∧
        closingQuote (value ++ '"' :: after) = some value.length ∧ n = head.length + (value.length + 2) ∧
        text = head ++ ['"'] ++ marker (utf8Len value) ++ ['"'] := by
  have size (head after : List Char) : (head ++ after).length - after.length = head.length := by
    rw [List.length_append, Nat.add_sub_cancel]
  rw [matchJsonField]
  constructor
  · intro found
    obtain ⟨after, stripped, found⟩ := Option.bind_eq_some_iff.1 found
    obtain ⟨⟨len, total⟩, string, found⟩ := Option.map_eq_some_iff.1 found
    obtain ⟨head, named, rfl⟩ := stripJsonName_head_of_eq_some stripped
    obtain ⟨body, count, rfl, close, rfl, rfl⟩ := jsonStringValue_eq_some string
    obtain ⟨value, after, rfl, rfl⟩ := closingQuote_split close
    rw [size, List.take_left, List.take_left] at found
    cases found
    exact ⟨head, value, after, named, rfl, close, rfl, rfl⟩
  · rintro ⟨head, value, after, named, rfl, close, rfl, rfl⟩
    rw [stripJsonName_head named (by decide), Option.bind_some, jsonStringValue_quoted, close, Option.map_some,
      Option.map_some, size, List.take_left, List.take_left]

theorem matchCompactField_eq_some {previous : Option Char} {rest field text : List Char} {n : Nat} :
    matchCompactField previous rest field = some (n, text) ↔
      ∃ value, rest = field ++ '=' :: value ∧ isBoundary previous = true ∧ 0 < compactValueLen value ∧
        n = field.length + 1 + compactValueLen value ∧
        text = field ++ ['='] ++ marker (utf8Len (value.take (compactValueLen value))) := by
  rw [matchCompactField]
  constructor
  · intro found
    obtain ⟨after, named, rest⟩ := Option.bind_eq_some_iff.1 found
    obtain ⟨value, equals, fires⟩ := Option.bind_eq_some_iff.1 rest
    rw [stripPrefix_eq_some] at named equals
    split at fires
    · rename_i both
      rw [Bool.and_eq_true, decide_eq_true_eq] at both
      cases fires
      exact ⟨value, by rw [named, equals]; rfl, both.1, both.2, rfl, rfl⟩
    · cases fires
  · rintro ⟨value, rfl, boundary, long, rfl, rfl⟩
    have named : stripPrefix field (field ++ '=' :: value) = some ('=' :: value) := stripPrefix_eq_some.2 rfl
    have equals : stripPrefix ['='] ('=' :: value) = some value := stripPrefix_eq_some.2 rfl
    rw [named, Option.bind_some, equals, Option.bind_some, if_pos (by rw [boundary]; simpa using long)]

/-- The literal of a shape, and enough of what its payload is made of. -/
def Shaped (text : List Char) : Prop :=
  ∃ shape ∈ shapes, ∃ payload, shape.literal ++ payload <+: text ∧
    (∀ c ∈ payload, shape.charset.contains c = true) ∧ shape.minPayload ≤ payload.length

theorem Shaped.mono {text text' : List Char} (shaped : Shaped text) (front : text <+: text') : Shaped text' := by
  obtain ⟨shape, mem, payload, begins, made, long⟩ := shaped
  exact ⟨shape, mem, payload, begins.trans front, made, long⟩

theorem takeWhile_of_prefix {p : Char → Bool} {front text : List Char} (all : ∀ c ∈ front, p c = true)
    (begins : front <+: text) : front.length ≤ (text.takeWhile p).length := by
  obtain ⟨rest, rfl⟩ := begins
  rw [List.takeWhile_append_of_pos all, List.length_append]
  omega

theorem matchShape_eq_some {previous : Option Char} {rest text : List Char} {n : Nat}
    (found : matchShape previous rest = some (n, text)) :
    isBoundary previous = true ∧ ∃ shape ∈ shapes, ∃ payload after, rest = shape.literal ++ (payload ++ after) ∧
      (∀ c ∈ payload, shape.charset.contains c = true) ∧ (∀ c ∈ after.head?, shape.charset.contains c = false) ∧
      shape.minPayload ≤ payload.length ∧ n = shape.literal.length + payload.length ∧
      text = shape.literal ++ marker payload.length := by
  unfold matchShape at found
  split at found
  · rename_i boundary
    obtain ⟨shape, mem, found⟩ := List.exists_of_findSome?_eq_some found
    obtain ⟨payload, literal, found⟩ := Option.bind_eq_some_iff.1 found
    rw [stripPrefix_eq_some] at literal
    dsimp only at found
    split at found
    · rename_i long
      cases found
      refine ⟨boundary, shape, mem, payload.takeWhile shape.charset.contains,
        payload.dropWhile shape.charset.contains, ?_, fun c mem => List.mem_takeWhile_imp mem, ?_, long, rfl, rfl⟩
      · rw [List.takeWhile_append_dropWhile]
        exact literal
      · exact Trim.head?_dropWhile _
    · cases found
  · cases found

theorem matchShape_eq_none {previous : Option Char} {rest : List Char} (boundary : isBoundary previous = true) :
    matchShape previous rest = none ↔ ¬ Shaped rest := by
  constructor
  · rintro none_ ⟨shape, mem, payload, ⟨after, rfl⟩, made, long⟩
    rw [matchShape, if_pos boundary, List.findSome?_eq_none_iff] at none_
    have literal : stripPrefix shape.literal (shape.literal ++ payload ++ after) = some (payload ++ after) :=
      stripPrefix_eq_some.2 (List.append_assoc _ _ _)
    have here := none_ shape mem
    rw [literal, Option.bind_some] at here
    have run := takeWhile_of_prefix made (List.prefix_append payload after)
    dsimp only at here
    rw [if_pos (long.trans run)] at here
    cases here
  · intro unshaped
    cases found : matchShape previous rest with
    | none => rfl
    | some result =>
      obtain ⟨-, shape, mem, payload, after, rfl, made, -, long, -⟩ := matchShape_eq_some (n := result.1) found
      refine absurd ⟨shape, mem, payload, ?_, made, long⟩ unshaped
      rw [← List.append_assoc]
      exact List.prefix_append _ _

theorem matchShape_of_inside {previous : Option Char} (rest : List Char) (inside : isBoundary previous = false) :
    matchShape previous rest = none := by
  rw [matchShape, if_neg (by simp [inside])]

theorem matchField_eq_none {previous : Option Char} {rest : List Char} :
    matchField previous rest = none ↔
      ∀ field ∈ secretFields, matchJsonField rest field = none ∧ matchCompactField previous rest field = none := by
  simp only [matchField, List.findSome?_eq_none_iff, Option.or_eq_none_iff]

/-! ## What a match keeps and what it hides -/

/-- A match: the text it keeps in front, the text it hides, the quote behind it, and the rest of the line. -/
inductive Hit (previous : Option Char) : List Char → List Char → List Char → List Char → Prop where
  | pem {value after : List Char} (begins : pemBegin <+: value ++ after)
      (whole : value.length = pemLength (value ++ after)) : Hit previous [] value [] after
  | json {field head value after : List Char} (mem : field ∈ secretFields) (named : JsonHead field head)
      (close : closingQuote (value ++ '"' :: after) = some value.length) :
      Hit previous (head ++ ['"']) value ['"'] after
  | compact {field value after : List Char} (mem : field ∈ secretFields) (boundary : isBoundary previous = true)
      (nonempty : value ≠ []) (whole : compactValueLen (value ++ after) = value.length) :
      Hit previous (field ++ ['=']) value [] after
  | shape {shape : Shape} {payload after : List Char} (mem : shape ∈ shapes) (boundary : isBoundary previous = true)
      (made : ∀ c ∈ payload, shape.charset.contains c = true)
      (stops : ∀ c ∈ after.head?, shape.charset.contains c = false) (long : shape.minPayload ≤ payload.length) :
      Hit previous shape.literal payload [] after

theorem Charset.ascii {charset : Charset} {c : Char} (made : charset.contains c = true) : c.utf8Size = 1 := by
  have below {last : Char} (low : last.val ≤ 127) (range : c.val ≤ last.val) : c.val ≤ 127 :=
    UInt32.le_trans range low
  have upper : c.isUpper = true → c.val ≤ 127 := by
    intro up
    exact below (by decide) (of_decide_eq_true up).2
  have lower : c.isLower = true → c.val ≤ 127 := by
    intro low
    exact below (by decide) (of_decide_eq_true (Bool.and_eq_true_iff.1 low).2)
  have digit : c.isDigit = true → c.val ≤ 127 := by
    intro num
    rw [Char.isDigit, Bool.and_eq_true, decide_eq_true_eq, decide_eq_true_eq] at num
    exact below (by decide) num.2
  rw [Char.utf8Size_eq_one_iff]
  cases charset with
  | token =>
    rw [Charset.contains, Bool.or_eq_true, decide_eq_true_eq] at made
    rcases made with alphanum | mark
    · rcases Bool.or_eq_true_iff.1 alphanum with alpha | num
      · exact (Bool.or_eq_true_iff.1 alpha).elim upper lower
      · exact digit num
    · have all : ∀ c ∈ ['-', '_', '.', '+', '/'], c.val ≤ 127 := by decide
      exact all c mark
  | upper =>
    rw [Charset.contains, Bool.or_eq_true] at made
    exact made.elim upper digit

theorem utf8Len_made {charset : Charset} {payload : List Char}
    (made : ∀ c ∈ payload, charset.contains c = true) : utf8Len payload = payload.length := by
  induction payload with
  | nil => rfl
  | cons c payload ih =>
    rw [List.forall_mem_cons] at made
    rw [utf8Len_cons, Charset.ascii made.1, ih made.2, List.length_cons, Nat.add_comm]

theorem hit_of_matchAt {previous : Option Char} {rest text : List Char} {n : Nat}
    (found : matchAt previous rest = some (n, text)) :
    ∃ kept value closing after, Hit previous kept value closing after ∧ rest = kept ++ value ++ closing ++ after ∧
      n = (kept ++ value ++ closing).length ∧ text = kept ++ marker (utf8Len value) ++ closing := by
  rw [matchAt, Option.or_eq_some_iff, Option.or_eq_some_iff] at found
  rcases found with (pem | ⟨-, named⟩) | ⟨-, shaped⟩
  · unfold matchPem at pem
    split at pem
    · rename_i begins
      have cut : rest.take (pemLength rest) ++ rest.drop (pemLength rest) = rest := List.take_append_drop _ _
      have size : (rest.take (pemLength rest)).length = pemLength rest := by
        rw [List.length_take, Nat.min_eq_left (pemLength_le rest)]
      cases pem
      refine ⟨[], rest.take (pemLength rest), [], rest.drop (pemLength rest), .pem ?_ ?_, ?_, ?_, ?_⟩
      · rwa [cut, ← List.isPrefixOf_iff_prefix]
      · rw [cut, size]
      · simp
      · simp [size]
      · simp
    · cases pem
  · obtain ⟨field, mem, either⟩ := List.exists_of_findSome?_eq_some named
    rw [Option.or_eq_some_iff] at either
    rcases either with json | ⟨-, compact⟩
    · obtain ⟨head, value, after, quoted, rfl, close, rfl, rfl⟩ := matchJsonField_eq_some.1 json
      exact ⟨head ++ ['"'], value, ['"'], after, .json mem quoted close, by simp, by simp, rfl⟩
    · obtain ⟨value, rfl, boundary, long, rfl, rfl⟩ := matchCompactField_eq_some.1 compact
      have bound := compactValueLen_le value
      have cut : value.take (compactValueLen value) ++ value.drop (compactValueLen value) = value :=
        List.take_append_drop _ _
      refine ⟨field ++ ['='], value.take (compactValueLen value), [], value.drop (compactValueLen value),
        .compact mem boundary ?_ ?_, ?_, ?_, ?_⟩
      · intro empty
        have size := congrArg List.length empty
        rw [List.length_take, Nat.min_eq_left bound, List.length_nil] at size
        omega
      · rw [cut, List.length_take, Nat.min_eq_left bound]
      · simp
      · simp [Nat.min_eq_left bound, Nat.add_assoc, Nat.add_comm]
      · simp
  · obtain ⟨boundary, shape, mem, payload, after, rfl, made, stops, long, rfl, rfl⟩ := matchShape_eq_some shaped
    exact ⟨shape.literal, payload, [], after, .shape mem boundary made stops long, by simp, by simp, by
      simp [utf8Len_made made]⟩

/-- The pass goes on behind a match. -/
theorem scan_hit {previous : Option Char} {front after text : List Char} (nonempty : front ≠ [])
    (found : matchAt previous (front ++ after) = some (front.length, text)) :
    scan previous 0 (front ++ after) = text ++ scan front.getLast? 0 after := by
  cases front with
  | nil => exact absurd rfl nonempty
  | cons c front =>
    rw [scan_match (by simp) found]
    have passed := @scan_over front (some c) after
    rw [List.getLast?_cons]
    cases last : front.getLast? with
    | none =>
      rw [last] at passed
      exact congrArg (text ++ ·) passed
    | some d =>
      rw [last] at passed
      exact congrArg (text ++ ·) passed

/-! ## Where the pass copies -/

/-- The characters with which a pattern begins. -/
def starters : List Char := ['-', '"', 'a', 'c', 'p', 's', 't', 'g', 'x', 'A', 'B']

/-- No pattern begins with the character, or it is inside a word and begins no block and no quoted name. -/
def still (previous : Option Char) (c : Char) : Bool :=
  c ∉ starters || (!isBoundary previous && c ≠ '-' && c ≠ '"')

theorem mem_starters {start : List Char} (known : (start.head?.any fun d => d ∈ starters) = true) {c : Char}
    {rest after : List Char} (begins : c :: rest = start ++ after) : c ∈ starters := by
  obtain ⟨d, head, mem⟩ := (Option.any_eq_true _ _).1 known
  obtain ⟨more, rfl⟩ := List.head?_eq_some_iff.1 head
  rw [(List.cons.inj begins).1]
  exact of_decide_eq_true mem

theorem starts_field {field : List Char} (mem : field ∈ secretFields) {c : Char} {rest after : List Char}
    (begins : c :: rest = field ++ after) : c ∈ starters := by
  have heads : ∀ field ∈ secretFields, (field.head?.any fun d => d ∈ starters) = true := by decide
  exact mem_starters (heads field mem) begins

theorem starts_shape {shape : Shape} (mem : shape ∈ shapes) {c : Char} {rest after : List Char}
    (begins : c :: rest = shape.literal ++ after) : c ∈ starters := by
  have heads : ∀ shape ∈ shapes, (shape.literal.head?.any fun d => d ∈ starters) = true := by decide
  exact mem_starters (heads shape mem) begins

theorem matchAt_still {previous : Option Char} {c : Char} (rest : List Char) (quiet : still previous c = true) :
    matchAt previous (c :: rest) = none := by
  rw [still, Bool.or_eq_true, Bool.and_eq_true, Bool.and_eq_true] at quiet
  have plain : c ≠ '-' ∧ c ≠ '"' := by
    rcases quiet with foreign | ⟨⟨-, dash⟩, quote⟩
    · constructor <;> rintro rfl <;> exact absurd foreign (by decide)
    · exact ⟨by simpa using dash, by simpa using quote⟩
  have inside : isBoundary previous = true → c ∉ starters := by
    intro boundary
    rcases quiet with foreign | ⟨⟨within, -⟩, -⟩
    · simpa using foreign
    · rw [boundary] at within
      cases within
  refine matchAt_eq_none.2 ⟨matchPem_none plain.1, matchField_eq_none.2 fun field mem => ⟨?_, ?_⟩, ?_⟩
  · cases json : matchJsonField (c :: rest) field with
    | none => rfl
    | some result =>
      obtain ⟨head, value, after, ⟨gap, gap', -, -, rfl⟩, equal, -⟩ := matchJsonField_eq_some (n := result.1).1 json
      exact absurd (List.cons.inj equal).1 plain.2
  · cases compact : matchCompactField previous (c :: rest) field with
    | none => rfl
    | some result =>
      obtain ⟨value, equal, boundary, -⟩ := matchCompactField_eq_some (n := result.1).1 compact
      exact absurd (starts_field mem equal) (inside boundary)
  · cases shape : matchShape previous (c :: rest) with
    | none => rfl
    | some result =>
      obtain ⟨boundary, kind, mem, payload, after, equal, -⟩ := matchShape_eq_some (n := result.1) shape
      exact absurd (starts_shape mem equal) (inside boundary)

def Quiet : Option Char → List Char → Bool
  | _, [] => true
  | previous, c :: text => still previous c && Quiet (some c) text

theorem scan_quiet {previous : Option Char} {text : List Char} (quiet : Quiet previous text = true)
    (rest : List Char) :
    scan previous 0 (text ++ rest) = text ++ scan (text.getLast?.or previous) 0 rest := by
  induction text generalizing previous with
  | nil => rfl
  | cons c text ih =>
    rw [Quiet, Bool.and_eq_true] at quiet
    rw [List.cons_append, scan, matchAt_still _ quiet.1]
    have copied := ih quiet.2
    rw [List.getLast?_cons]
    cases last : text.getLast? with
    | none =>
      rw [last] at copied
      exact congrArg (c :: ·) copied
    | some d =>
      rw [last] at copied
      exact congrArg (c :: ·) copied

end SupraHarness.Redact
