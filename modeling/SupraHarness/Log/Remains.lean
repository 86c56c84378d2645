import SupraHarness.Log.Hits

/-!
# What redaction leaves of a line

Up to the first hidden text the pass leaves the line as it is, then comes a marker. A second pass copies
the marker, and at the name or the literal in front of it finds what the first one found there. Where the
first pass found nothing, the second one finds nothing either, unless the character in front has changed;
a string without an end gets none.
-/
namespace SupraHarness.Redact

open Str Scan

/-- The text goes on with white space, or has come to its end. -/
def Ended (text : List Char) : Prop := ∀ c ∈ text.head?, isAsciiWhitespace c = true

/-- The rest of a line up to the first text that the pass hides. -/
def visible : Option Char → List Char → List Char
  | _, [] => []
  | previous, c :: line =>
    match matchAt previous (c :: line) with
    | some (_, replacement) => replacement.takeWhile (· ≠ '<')
    | none => c :: visible (some c) line

/-! ## The marker -/

/-- The letters of a marker. -/
def markerWord : List Char := ['r', 'e', 'd', 'a', 'c', 't', 'e', 'd', ':']

theorem marker_eq (n : Nat) : marker n = '<' :: (markerWord ++ (Nat.toDigits 10 n ++ ['>'])) := by
  have front : "<redacted:".toList = '<' :: markerWord := by decide
  exact (List.append_assoc _ _ _).trans (congrArg (· ++ (Nat.toDigits 10 n ++ ['>'])) front)

theorem mem_marker {n : Nat} {c : Char} (mem : c ∈ marker n) : c.isDigit = true ∨ c ∈ '<' :: '>' :: markerWord := by
  rw [marker_eq, List.mem_cons, List.mem_append, List.mem_append, List.mem_singleton] at mem
  rcases mem with rfl | letter | digit | rfl
  · exact .inr (by decide)
  · exact .inr (List.mem_cons_of_mem _ (List.mem_cons_of_mem _ letter))
  · exact .inl (Nat.isDigit_of_mem_toDigits (by omega) (by omega) digit)
  · exact .inr (by decide)

theorem length_marker (n : Nat) : (marker n).length = 11 + (Nat.toDigits 10 n).length := by
  rw [marker_eq, List.length_cons, List.length_append, List.length_append, List.length_singleton]
  have word : markerWord.length = 9 := rfl
  omega

theorem utf8Len_of_ascii {text : List Char} (ascii : ∀ c ∈ text, c.utf8Size = 1) : utf8Len text = text.length := by
  induction text with
  | nil => rfl
  | cons c text ih =>
    rw [List.forall_mem_cons] at ascii
    rw [utf8Len_cons, ascii.1, ih ascii.2, List.length_cons, Nat.add_comm]

theorem utf8Len_marker (n : Nat) : utf8Len (marker n) = (marker n).length := by
  refine utf8Len_of_ascii fun c mem => ?_
  rcases mem_marker mem with digit | letter
  · have upper : Charset.upper.contains c = true := by rw [Charset.contains, digit, Bool.or_true]
    exact Charset.ascii upper
  · have all : ∀ d ∈ '<' :: '>' :: markerWord, d.utf8Size = 1 := by decide
    exact all c letter

/-- The marker of thirteen bytes is the only one that is as long as it says. -/
theorem length_marker_eq {n : Nat} : (marker n).length = n ↔ n = 13 := by
  rw [length_marker]
  constructor
  · intro equal
    have digits : (Nat.toDigits 10 n).length = n - 11 := by omega
    have positive : 0 < (Nat.toDigits 10 n).length := Nat.length_toDigits_pos
    by_contra other
    have more : 1 < n - 11 := by
      by_contra short
      have twelve : n = 12 := by omega
      rw [twelve] at digits
      exact absurd digits (by decide)
    have below : ¬ (Nat.toDigits 10 n).length ≤ n - 12 := by omega
    rw [Nat.length_toDigits_le_iff (by omega) (by omega), Nat.not_lt] at below
    have grows : n - 13 < 10 ^ (n - 13) := Nat.lt_pow_self (by omega)
    have power : 10 ^ (n - 12) = 10 ^ (n - 13) * 10 := by
      rw [← Nat.pow_succ]
      congr 1
      omega
    omega
  · rintro rfl
    decide

theorem getLast?_marker (n : Nat) : (marker n).getLast? = some '>' := by
  rw [marker_eq, List.getLast?_cons, List.getLast?_append, List.getLast?_append, List.getLast?_singleton,
    Option.some_or, Option.some_or]
  rfl

theorem quiet_of_foreign {text : List Char} (foreign : ∀ c ∈ text, c ∉ starters) (previous : Option Char) :
    Quiet previous text = true := by
  induction text generalizing previous with
  | nil => rfl
  | cons c text ih =>
    rw [List.forall_mem_cons] at foreign
    rw [Quiet, ih foreign.2, still, decide_eq_true foreign.1]
    rfl

theorem quiet_append {front text : List Char} {previous : Option Char} :
    Quiet previous (front ++ text) = (Quiet previous front && Quiet (front.getLast?.or previous) text) := by
  induction front generalizing previous with
  | nil => rfl
  | cons c front ih =>
    rw [List.cons_append, Quiet, Quiet, ih, Bool.and_assoc, List.getLast?_cons]
    cases front.getLast? <;> rfl

theorem quiet_marker (previous : Option Char) (n : Nat) : Quiet previous (marker n) = true := by
  have word : Quiet (some '<') markerWord = true := by decide
  have tail : ∀ c ∈ Nat.toDigits 10 n ++ ['>'], c ∉ starters := by
    have digits : ∀ d ∈ starters, d.isDigit = false := by decide
    intro c mem start
    rw [List.mem_append] at mem
    rcases mem with digit | last
    · have isDigit : c.isDigit = true := Nat.isDigit_of_mem_toDigits (by omega) (by omega) digit
      rw [digits c start] at isDigit
      cases isDigit
    · rw [List.mem_singleton.1 last] at start
      exact absurd start (by decide)
  have opening : still previous '<' = true := by
    rw [still, Bool.or_eq_true]
    exact .inl (by decide)
  rw [marker_eq, Quiet, opening, quiet_append, word]
  exact quiet_of_foreign tail _

/-- The pass copies a marker. -/
theorem scan_marker (previous : Option Char) (n : Nat) (rest : List Char) :
    scan previous 0 (marker n ++ rest) = marker n ++ scan (some '>') 0 rest := by
  rw [scan_quiet (quiet_marker previous n), getLast?_marker]
  rfl

/-! ## What the pass leaves of a line -/

theorem field_foreign {field : List Char} (mem : field ∈ secretFields) {c : Char}
    (foreign : c ∈ ['<', '=', '"', '\\', '-']) : c ∉ field := by
  have all : ∀ field ∈ secretFields, ∀ c ∈ ['<', '=', '"', '\\', '-'], c ∉ field := by decide
  exact all field mem c foreign

theorem shape_foreign {shape : Shape} (mem : shape ∈ shapes) {c : Char} (foreign : c ∈ ['<', '=', '"', '\\']) :
    c ∉ shape.literal := by
  have all : ∀ shape ∈ shapes, ∀ c ∈ ['<', '=', '"', '\\'], c ∉ shape.literal := by decide
  exact all shape mem c foreign

theorem JsonHead.foreign {field head : List Char} (named : JsonHead field head) (mem : field ∈ secretFields) :
    '<' ∉ head := by
  obtain ⟨gap, gap', blank, blank', rfl⟩ := named
  have visible : isWhitespace '<' = false := by decide
  have solid {gap : List Char} (blank : Trim.Blank isWhitespace gap) : '<' ∉ gap := by
    intro inside
    rw [blank '<' inside] at visible
    cases visible
  simp [field_foreign mem, solid blank, solid blank']

theorem Hit.foreign {previous : Option Char} {kept value closing after : List Char}
    (hit : Hit previous kept value closing after) : '<' ∉ kept := by
  cases hit with
  | pem => exact List.not_mem_nil
  | json mem named =>
    rw [List.mem_append, List.mem_singleton]
    exact fun inside => inside.elim (named.foreign mem) (by decide)
  | compact mem =>
    rw [List.mem_append, List.mem_singleton]
    exact fun inside => inside.elim (field_foreign mem (by decide)) (by decide)
  | shape mem => exact shape_foreign mem (by decide)

/-- Only a block is hidden as a whole. -/
theorem Hit.pem_of_nil {previous : Option Char} {kept value closing after : List Char}
    (hit : Hit previous kept value closing after) (nothing : kept = []) :
    pemBegin <+: value ++ after ∧ closing = [] ∧ value.length = pemLength (value ++ after) := by
  cases hit with
  | pem begins whole => exact ⟨begins, rfl, whole⟩
  | json => exact absurd nothing (by simp)
  | compact => exact absurd nothing (by simp)
  | shape mem =>
    have all : ∀ shape ∈ shapes, shape.literal ≠ [] := by decide
    exact absurd nothing (all _ mem)

theorem takeWhile_marker {kept : List Char} (foreign : '<' ∉ kept) (n : Nat) (closing : List Char) :
    (kept ++ marker n ++ closing).takeWhile (· ≠ '<') = kept := by
  rw [List.append_assoc, List.takeWhile_append_of_pos, marker_eq, List.cons_append, List.takeWhile_cons_of_neg,
    List.append_nil]
  · simp
  · intro c mem
    rw [decide_eq_true_eq]
    rintro rfl
    exact foreign mem

/-- The pass leaves the visible text and goes on, if at all, with a marker. -/
theorem scan_visible (previous : Option Char) (rest : List Char) :
    visible previous rest <+: rest ∧
      ∃ tail, scan previous 0 rest = visible previous rest ++ tail ∧ ∀ c ∈ tail.head?, c = '<' := by
  induction rest generalizing previous with
  | nil => exact ⟨List.nil_prefix, [], rfl, nofun⟩
  | cons c line ih =>
    rw [visible, scan]
    cases found : matchAt previous (c :: line) with
    | none =>
      obtain ⟨front, tail, equal, first⟩ := ih (some c)
      exact ⟨List.cons_prefix_cons.2 ⟨rfl, front⟩, tail, congrArg (c :: ·) equal, first⟩
    | some result =>
      obtain ⟨consumed, replacement⟩ := result
      obtain ⟨kept, value, closing, after, hit, equal, -, rfl⟩ := hit_of_matchAt found
      dsimp only
      rw [takeWhile_marker hit.foreign, equal, List.append_assoc, List.append_assoc, List.append_assoc,
        List.append_assoc]
      refine ⟨List.prefix_append _ _, _, rfl, ?_⟩
      rw [marker_eq]
      rintro c ⟨⟩
      rfl

/-- A text does not reach beyond a character that it does not have. -/
theorem starts_before {front text tail : List Char} {stop : Char} (foreign : stop ∉ front)
    (begins : front <+: text ++ tail) (first : ∀ c ∈ tail.head?, c = stop) : front <+: text := by
  by_cases short : front.length ≤ text.length
  · exact List.prefix_of_prefix_length_le begins (List.prefix_append _ _) short
  · cases tail with
    | nil =>
      rw [List.append_nil] at begins
      exact absurd begins.length_le short
    | cons c tail =>
      have longer : text ++ [c] <+: front := by
        refine List.prefix_of_prefix_length_le ?_ begins ?_
        · exact ⟨tail, by simp⟩
        · rw [List.length_append, List.length_singleton]
          omega
      rw [first c rfl] at longer
      exact absurd (longer.subset (by simp)) foreign

/-- What is left of a line begins as the line does, up to the next marker. -/
theorem starts_visible {front rest : List Char} {previous : Option Char} (foreign : '<' ∉ front)
    (begins : front <+: scan previous 0 rest) : front <+: visible previous rest := by
  obtain ⟨-, tail, equal, first⟩ := scan_visible previous rest
  exact starts_before foreign (equal ▸ begins) first

theorem starts_rest {front rest : List Char} {previous : Option Char} (foreign : '<' ∉ front)
    (begins : front <+: scan previous 0 rest) : front <+: rest :=
  (starts_visible foreign begins).trans (scan_visible previous rest).1

/-- The pass leaves the first character, or a marker in place of a block. -/
theorem scan_head (previous : Option Char) (c : Char) (line : List Char) :
    ∃ d tail, scan previous 0 (c :: line) = d :: tail ∧ (d = c ∨ c = '-' ∧ d = '<') := by
  rw [scan]
  cases found : matchAt previous (c :: line) with
  | none => exact ⟨c, _, rfl, .inl rfl⟩
  | some result =>
    obtain ⟨consumed, replacement⟩ := result
    obtain ⟨kept, value, closing, after, hit, equal, -, rfl⟩ := hit_of_matchAt found
    dsimp only
    cases kept with
    | nil =>
      obtain ⟨begins, rfl, -⟩ := hit.pem_of_nil rfl
      have dash : ∃ more, pemBegin = '-' :: more := ⟨_, rfl⟩
      obtain ⟨more, opening⟩ := dash
      rw [List.nil_append, List.append_nil] at equal
      rw [← equal, opening, List.cons_prefix_cons] at begins
      exact ⟨'<', _, by rw [marker_eq]; rfl, .inr ⟨begins.1.symm, rfl⟩⟩
    | cons d kept =>
      exact ⟨d, _, rfl, .inl (List.cons.inj equal).1.symm⟩

theorem ended_nil : Ended [] := nofun

theorem ended_cons {c : Char} {text : List Char} : Ended (c :: text) ↔ isAsciiWhitespace c = true := by
  rw [Ended, List.head?_cons]
  simp

theorem ended_scan {previous : Option Char} {rest : List Char} : Ended (scan previous 0 rest) ↔ Ended rest := by
  cases rest with
  | nil => exact Iff.rfl
  | cons c line =>
    obtain ⟨d, tail, equal, same⟩ := scan_head previous c line
    rw [equal, ended_cons, ended_cons]
    rcases same with rfl | ⟨rfl, rfl⟩
    · exact Iff.rfl
    · exact iff_of_false (by decide) (by decide)

theorem compactValueLen_bare {value : List Char} (bare : value.head? ≠ some '"') :
    compactValueLen value = (value.takeWhile fun c => !isAsciiWhitespace c).length := by
  rw [compactValueLen, if_neg]
  intro quote
  obtain ⟨body, rfl⟩ := isPrefixOf_quote.1 quote
  exact bare rfl

theorem compactValueLen_pos {value : List Char} : 0 < compactValueLen value ↔ ¬ Ended value := by
  cases value with
  | nil => exact iff_of_false (by decide) fun open_ => open_ ended_nil
  | cons c value =>
    rw [ended_cons, Bool.not_eq_true]
    by_cases quote : c = '"'
    · subst quote
      refine iff_of_true ?_ (by decide)
      rw [compactValueLen, if_pos (isPrefixOf_quote.2 ⟨value, rfl⟩), jsonStringValue_quoted, Option.map_map]
      cases closingQuote value with
      | none => exact Nat.succ_pos _
      | some count => exact Nat.succ_pos _
    · rw [compactValueLen_bare (by simpa using quote)]
      cases white : isAsciiWhitespace c with
      | true => simp [white]
      | false => simp [white]

/-! ## The second pass at what the first one left -/

theorem takeWhile_ended {text : List Char} (ended : Ended text) :
    text.takeWhile (fun c => !isAsciiWhitespace c) = [] := by
  cases text with
  | nil => rfl
  | cons c text => exact List.takeWhile_cons_of_neg (by simp [ended_cons.1 ended])

theorem takeWhile_marked {text : List Char} (n : Nat) (ended : Ended text) :
    (marker n ++ text).takeWhile (fun c => !isAsciiWhitespace c) = marker n := by
  rw [List.takeWhile_append_of_pos, takeWhile_ended ended, List.append_nil]
  intro c mem
  have digits : ∀ d ∈ [' ', '\t', '\n', '\x0C', '\r'], d.isDigit = false := by decide
  have letters : ∀ d ∈ '<' :: '>' :: markerWord, isAsciiWhitespace d = false := by decide
  rw [Bool.not_eq_true']
  rcases mem_marker mem with digit | letter
  · rw [isAsciiWhitespace, decide_eq_false_iff_not]
    intro white
    rw [digits c white] at digit
    cases digit
  · exact letters c letter

theorem matchAt_compact {previous : Option Char} {field value : List Char} (mem : field ∈ secretFields)
    (boundary : isBoundary previous = true) (open_ : ¬ Ended value) :
    matchAt previous (field ++ '=' :: value) = some (field.length + 1 + compactValueLen value,
      field ++ ['='] ++ marker (utf8Len (value.take (compactValueLen value)))) := by
  have fires : matchCompactField previous (field ++ '=' :: value) field = some (_, _) :=
    matchCompactField_eq_some.2 ⟨value, rfl, boundary, compactValueLen_pos.2 open_, rfl, rfl⟩
  obtain ⟨c, more, rfl, -, dash⟩ := field_nonempty mem
  exact matchAt_field dash ((matchField_bare mem).trans fires)

/-- The pass at a field before an equals sign. -/
theorem scan_field {previous : Option Char} {field value after : List Char} (mem : field ∈ secretFields)
    (boundary : isBoundary previous = true) (nonempty : value ≠ [])
    (whole : compactValueLen (value ++ after) = value.length) :
    scan previous 0 (field ++ '=' :: (value ++ after)) =
      field ++ '=' :: (marker (utf8Len value) ++ scan value.getLast? 0 after) := by
  have open_ : ¬ Ended (value ++ after) := by
    rw [← compactValueLen_pos, whole]
    exact List.length_pos_of_ne_nil nonempty
  have found := matchAt_compact mem boundary open_
  have line : field ++ '=' :: (value ++ after) = (field ++ '=' :: value) ++ after := by simp
  have size : field.length + 1 + value.length = (field ++ '=' :: value).length := by
    rw [List.length_append, List.length_cons, Nat.add_assoc, Nat.add_comm 1]
  rw [whole, List.take_left, size, line] at found
  rw [line, scan_hit (by simp) found, List.getLast?_append, List.getLast?_cons_of_ne_nil nonempty]
  obtain ⟨last, equal⟩ := Option.isSome_iff_exists.1 (List.getLast?_isSome.2 nonempty)
  rw [equal, Option.some_or]
  simp

theorem compactValueLen_marked {rest : List Char} (n : Nat) (ended : Ended rest) :
    compactValueLen (marker n ++ rest) = (marker n).length := by
  rw [compactValueLen_bare, takeWhile_marked n ended]
  rw [marker_eq]
  simp

theorem marker_ne_nil (n : Nat) : marker n ≠ [] := by
  rw [marker_eq]
  exact List.cons_ne_nil _ _

/-- A field before an equals sign stays as it is where its value is the marker of thirteen bytes. -/
theorem scan_compact {previous : Option Char} {field value : List Char} (mem : field ∈ secretFields)
    (boundary : isBoundary previous = true) (open_ : ¬ Ended value) :
    scan previous 0 (field ++ '=' :: value) = field ++ '=' :: value ↔
      ∃ rest, value = marker 13 ++ rest ∧ Ended rest ∧ scan (some '>') 0 rest = rest := by
  constructor
  · intro equal
    have bound := compactValueLen_le value
    have cut : value.take (compactValueLen value) ++ value.drop (compactValueLen value) = value :=
      List.take_append_drop _ _
    have size : (value.take (compactValueLen value)).length = compactValueLen value := by
      rw [List.length_take, Nat.min_eq_left bound]
    have nonempty : value.take (compactValueLen value) ≠ [] := by
      rw [← List.length_pos_iff, size]
      exact compactValueLen_pos.2 open_
    have whole : compactValueLen (value.take (compactValueLen value) ++ value.drop (compactValueLen value)) =
        (value.take (compactValueLen value)).length := by rw [cut, size]
    have passed := scan_field mem boundary nonempty whole
    rw [cut, equal, List.append_cancel_left_eq, List.cons.injEq, and_iff_right rfl] at passed
    have bare : value.head? ≠ some '"' := by
      rw [passed, marker_eq]
      simp
    have front : value.take (compactValueLen value) = value.takeWhile fun c => !isAsciiWhitespace c := by
      rw [compactValueLen_bare bare]
      exact (List.prefix_iff_eq_take.1 (List.takeWhile_prefix _)).symm
    have ended : Ended (value.drop (compactValueLen value)) := by
      have behind : value.drop (compactValueLen value) = value.dropWhile fun c => !isAsciiWhitespace c := by
        have both := cut.trans (List.takeWhile_append_dropWhile (p := fun c => !isAsciiWhitespace c)).symm
        rw [front] at both
        exact List.append_cancel_left both
      rw [behind]
      intro c first
      simpa using @Trim.head?_dropWhile Char (fun c => !isAsciiWhitespace c) value c first
    generalize value.take (compactValueLen value) = hid at *
    generalize value.drop (compactValueLen value) = rest at *
    have whole : hid = marker (utf8Len hid) := by
      have run := congrArg (List.takeWhile fun c => !isAsciiWhitespace c) passed
      rwa [takeWhile_marked _ (ended_scan.2 ended), ← front] at run
    have thirteen : utf8Len hid = 13 := by
      rw [← length_marker_eq, ← utf8Len_marker, ← whole]
    rw [thirteen] at whole passed
    have behind : scan hid.getLast? 0 rest = rest := by
      rw [← cut, ← whole] at passed
      exact (List.append_cancel_left passed).symm
    refine ⟨rest, by rw [← whole, cut], ended, ?_⟩
    rwa [whole, getLast?_marker] at behind
  · rintro ⟨rest, rfl, ended, same⟩
    rw [scan_field mem boundary (marker_ne_nil 13) (compactValueLen_marked 13 ended), utf8Len_marker,
      length_marker_eq.2 rfl, getLast?_marker, same]

theorem marker_unquoted (n : Nat) : '\\' ∉ marker n ∧ '"' ∉ marker n := by
  have digits : ∀ d ∈ ['\\', '"'], d.isDigit = false := by decide
  have letters : ∀ d ∈ ['\\', '"'], d ∉ '<' :: '>' :: markerWord := by decide
  have absent (d : Char) (mem : d ∈ ['\\', '"']) : d ∉ marker n := by
    intro inside
    rcases mem_marker inside with digit | letter
    · rw [digits d mem] at digit
      cases digit
    · exact letters d mem letter
  exact ⟨absent _ (by decide), absent _ (by decide)⟩

theorem scan_quoted {previous : Option Char} {field head value after : List Char} (mem : field ∈ secretFields)
    (named : JsonHead field head) (close : closingQuote (value ++ '"' :: after) = some value.length) :
    scan previous 0 (head ++ '"' :: (value ++ '"' :: after)) =
      head ++ '"' :: (marker (utf8Len value) ++ '"' :: scan (some '"') 0 after) := by
  have fires : matchJsonField (head ++ '"' :: (value ++ '"' :: after)) field = some (_, _) :=
    matchJsonField_eq_some.2 ⟨head, value, after, named, rfl, close, rfl, rfl⟩
  have found : matchAt previous (head ++ '"' :: (value ++ '"' :: after)) = some (head.length + (value.length + 2),
      head ++ ['"'] ++ marker (utf8Len value) ++ ['"']) := by
    obtain ⟨gap, gap', -, -, rfl⟩ := named
    have quoted : '"' :: field ++ '"' :: gap ++ ':' :: gap' ++ '"' :: (value ++ '"' :: after) =
        '"' :: field ++ '"' :: (gap ++ ':' :: (gap' ++ '"' :: (value ++ '"' :: after))) := by simp
    rw [quoted] at fires ⊢
    exact matchAt_field (by decide) ((matchField_quoted mem).trans fires)
  have line : head ++ '"' :: (value ++ '"' :: after) = (head ++ '"' :: value) ++ '"' :: after := by simp
  have size : head.length + (value.length + 2) = (head ++ '"' :: value).length + 1 := by
    rw [List.length_append, List.length_cons]
    omega
  rw [line, size] at found
  rw [line, scan_match_quote found]
  simp

/-- A quoted field stays as it is where its value is the marker of thirteen bytes. -/
theorem scan_json {previous : Option Char} {field head rest : List Char} (n : Nat) (mem : field ∈ secretFields)
    (named : JsonHead field head) :
    scan previous 0 (head ++ '"' :: (marker n ++ '"' :: rest)) = head ++ '"' :: (marker n ++ '"' :: rest) ↔
      n = 13 ∧ scan (some '"') 0 rest = rest := by
  have close : closingQuote (marker n ++ '"' :: rest) = some (marker n).length := by
    rw [closingQuote_hop (marker_unquoted n).1 (marker_unquoted n).2, closingQuote_quote, Option.map_some,
      Nat.zero_add]
  rw [scan_quoted mem named close, List.append_cancel_left_eq, List.cons.injEq, and_iff_right rfl, utf8Len_marker]
  constructor
  · intro equal
    have same := marker_inj equal
    rw [same, List.append_cancel_left_eq, List.cons.injEq, and_iff_right rfl] at equal
    exact ⟨length_marker_eq.1 same, equal⟩
  · rintro ⟨rfl, same⟩
    rw [length_marker_eq.2 rfl, same]

theorem made_foreign {charset : Charset} {payload : List Char}
    (made : ∀ c ∈ payload, charset.contains c = true) {c : Char} (foreign : c ∈ ['<', '\\', '"']) : c ∉ payload := by
  have all : ∀ charset : Charset, ∀ c ∈ ['<', '\\', '"'], charset.contains c = false := by
    intro charset
    cases charset <;> decide
  intro inside
  have here := made c inside
  rw [all charset c foreign] at here
  cases here

theorem Shaped.long {text : List Char} (shaped : Shaped text) : 16 ≤ text.length := by
  obtain ⟨shape, mem, payload, begins, -, long⟩ := shaped
  have all : ∀ shape ∈ shapes, 16 ≤ shape.minPayload := by decide
  have enough := all shape mem
  have bound := begins.length_le
  rw [List.length_append] at bound
  omega

/-- A shape does not reach into a marker. -/
theorem Shaped.before {text tail : List Char} (shaped : Shaped (text ++ tail)) (first : ∀ c ∈ tail.head?, c = '<') :
    Shaped text := by
  obtain ⟨shape, mem, payload, begins, made, long⟩ := shaped
  refine ⟨shape, mem, payload, starts_before ?_ begins first, made, long⟩
  rw [List.mem_append]
  exact fun inside => inside.elim (shape_foreign mem (by decide)) (made_foreign made (by decide))

theorem shaped_of_matchShape {previous : Option Char} {rest : List Char} {found : Nat × List Char}
    (matched : matchShape previous rest = some found) : isBoundary previous = true ∧ Shaped rest := by
  obtain ⟨boundary, shape, mem, payload, after, rfl, made, -, long, -⟩ := matchShape_eq_some (n := found.1) matched
  refine ⟨boundary, shape, mem, payload, ?_, made, long⟩
  rw [← List.append_assoc]
  exact List.prefix_append _ _

/-- Nothing short matches before a marker. -/
theorem matchAt_short {previous : Option Char} {text rest : List Char} (short : text.length < 16)
    (foreign : ∀ c ∈ ['=', '"'], c ∉ text) (block : ¬ pemBegin <+: text) (nonempty : text ≠ []) :
    matchAt previous (text ++ '<' :: rest) = none := by
  have first : ∀ c ∈ ('<' :: rest).head?, c = '<' := by simp
  refine matchAt_eq_none.2 ⟨matchPem_eq_none.2 fun begins => ?_, matchField_eq_none.2 fun field mem => ⟨?_, ?_⟩, ?_⟩
  · exact block (starts_before (by decide) begins first)
  · cases json : matchJsonField (text ++ '<' :: rest) field with
    | none => rfl
    | some result =>
      obtain ⟨head, value, after, ⟨gap, gap', -, -, rfl⟩, equal, -⟩ := matchJsonField_eq_some (n := result.1).1 json
      cases text with
      | nil => exact absurd rfl nonempty
      | cons c text =>
        exact absurd ((List.cons.inj equal).1 ▸ List.mem_cons_self) (foreign '"' (by decide))
  · cases compact : matchCompactField previous (text ++ '<' :: rest) field with
    | none => rfl
    | some result =>
      obtain ⟨value, equal, -⟩ := matchCompactField_eq_some (n := result.1).1 compact
      have begins : field ++ ['='] <+: text ++ '<' :: rest := ⟨value, by rw [equal]; simp⟩
      have outside : '<' ∉ field ++ ['='] := by
        rw [List.mem_append, List.mem_singleton]
        exact fun inside => inside.elim (field_foreign mem (by decide)) (by decide)
      exact absurd ((starts_before outside begins first).subset (by simp)) (foreign '=' (by decide))
  · cases found : matchShape previous (text ++ '<' :: rest) with
    | none => rfl
    | some result => exact absurd ((shaped_of_matchShape found).2.before first).long (Nat.not_le.2 short)

theorem scan_short {previous : Option Char} {text rest : List Char} (short : text.length < 16)
    (foreign : ∀ c ∈ ['=', '"'], c ∉ text) (blocks : ∀ back ∈ text.tails, ¬ pemBegin <+: back) :
    scan previous 0 (text ++ '<' :: rest) = text ++ scan (text.getLast?.or previous) 0 ('<' :: rest) := by
  induction text generalizing previous with
  | nil => rfl
  | cons c text ih =>
    rw [List.tails, List.forall_mem_cons] at blocks
    have copied := @matchAt_short previous (c :: text) rest short foreign blocks.1 (by simp)
    have later := @ih (some c) (by rw [List.length_cons] at short; omega)
      (fun d mem inside => foreign d mem (List.mem_cons_of_mem _ inside)) blocks.2
    rw [List.cons_append] at copied
    rw [List.cons_append, scan, copied, List.getLast?_cons]
    cases last : text.getLast? with
    | none =>
      rw [last] at later
      exact congrArg (c :: ·) later
    | some d =>
      rw [last] at later
      exact congrArg (c :: ·) later

/-- The pass copies a literal before a marker. -/
theorem scan_literal {previous : Option Char} {shape : Shape} (mem : shape ∈ shapes) (n : Nat) (rest : List Char) :
    scan previous 0 (shape.literal ++ (marker n ++ rest)) =
      shape.literal ++ (marker n ++ scan (some '>') 0 rest) := by
  have all : ∀ shape ∈ shapes, shape.literal.length < 16 ∧ (∀ c ∈ ['=', '"'], c ∉ shape.literal) ∧
      ∀ back ∈ shape.literal.tails, ¬ pemBegin <+: back := by decide
  obtain ⟨short, foreign, blocks⟩ := all shape mem
  have copied := @scan_short previous shape.literal (markerWord ++ (Nat.toDigits 10 n ++ ['>']) ++ rest) short foreign
    blocks
  have marked : marker n ++ rest = '<' :: (markerWord ++ (Nat.toDigits 10 n ++ ['>']) ++ rest) := by
    rw [marker_eq, List.cons_append]
  rw [← scan_marker (shape.literal.getLast?.or previous), marked]
  exact copied

/-! ## A string that does not end -/

/-- Whether the next character is escaped, after this one; none after the quote that ends the string. -/
def quoteStep : Bool → Char → Option Bool
  | true, _ => some false
  | false, c => if c = '\\' then some true else if c = '"' then none else some false

/-- The state in a string after some of its characters, if it has not ended. -/
def inString : Bool → List Char → Option Bool
  | state, [] => some state
  | state, c :: text => (quoteStep state c).bind fun next => inString next text

theorem inString_append {state : Bool} {front text : List Char} :
    inString state (front ++ text) = (inString state front).bind fun next => inString next text := by
  induction front generalizing state with
  | nil => rfl
  | cons c front ih =>
    rw [List.cons_append, inString, inString, Option.bind_assoc]
    simp only [ih]

theorem closingQuote_eq_none {body : List Char} : closingQuote body = none ↔ ∃ state, inString false body = some state := by
  induction body using closingQuote.induct with
  | case1 => exact iff_of_true rfl ⟨false, rfl⟩
  | case2 => exact iff_of_true rfl ⟨true, rfl⟩
  | case3 c body ih =>
    rw [closingQuote_escape, Option.map_eq_none_iff, ih]
    rfl
  | case4 body _ =>
    rw [closingQuote_quote]
    exact iff_of_false (by rintro ⟨⟩) (by rintro ⟨_, ⟨⟩⟩)
  | case5 c body back quote ih =>
    rw [closingQuote_other back quote, Option.map_eq_none_iff, ih, inString, quoteStep, if_neg back, if_neg quote,
      Option.bind_some]

/-- Characters that are neither quotes nor backslashes. -/
theorem inString_plain {text : List Char} (back : '\\' ∉ text) (quote : '"' ∉ text) (nonempty : text ≠ [])
    (state : Bool) : inString state text = some false := by
  induction text generalizing state with
  | nil => exact absurd rfl nonempty
  | cons c text ih =>
    rw [List.mem_cons, not_or] at back quote
    have step : quoteStep state c = some false := by
      cases state with
      | true => rfl
      | false => rw [quoteStep, if_neg (Ne.symm back.1), if_neg (Ne.symm quote.1)]
    rw [inString, step, Option.bind_some]
    cases text with
    | nil => rfl
    | cons d text => exact ih back.2 quote.2 (by simp) false

theorem inString_last {text : List Char} {c : Char} {state state' : Bool} (back : c ≠ '\\')
    (open_ : inString state (text ++ [c]) = some state') : state' = false := by
  rw [inString_append] at open_
  obtain ⟨next, -, last⟩ := Option.bind_eq_some_iff.1 open_
  obtain ⟨after, step, same⟩ := Option.bind_eq_some_iff.1 last
  cases next with
  | true =>
    cases step
    cases same
    rfl
  | false =>
    rw [quoteStep, if_neg back] at step
    split at step
    · cases step
    · cases step
      cases same
      rfl

/-- A quoted name ends a string, before it or behind it. -/
theorem inString_head {field head : List Char} (mem : field ∈ secretFields) (named : JsonHead field head)
    (state : Bool) (rest : List Char) : inString state (head ++ rest) = none := by
  obtain ⟨gap, gap', -, -, rfl⟩ := named
  have nonempty : field ≠ [] := by
    obtain ⟨c, more, rfl, -⟩ := field_nonempty mem
    simp
  have letters := inString_plain (field_foreign mem (by decide)) (field_foreign mem (by decide)) nonempty false
  cases state with
  | false => rfl
  | true =>
    rw [List.cons_append, List.cons_append, List.cons_append, inString, quoteStep, Option.bind_some,
      List.append_assoc, List.append_assoc, inString_append, letters]
    rfl

theorem ended_of_bare {value after : List Char} (whole : compactValueLen (value ++ after) = value.length)
    (bare : (value ++ after).head? ≠ some '"') : Ended after := by
  rw [compactValueLen_bare bare] at whole
  have front : (value ++ after).takeWhile (fun c => !isAsciiWhitespace c) = value := by
    have begins := List.prefix_of_prefix_length_le (List.takeWhile_prefix (l := value ++ after) _)
      (List.prefix_append value after) whole.le
    exact begins.eq_of_length whole
  have behind := List.takeWhile_append_dropWhile (p := fun c => !isAsciiWhitespace c) (l := value ++ after)
  rw [front, List.append_cancel_left_eq] at behind
  rw [← behind]
  intro c first
  simpa using @Trim.head?_dropWhile Char (fun c => !isAsciiWhitespace c) (value ++ after) c first

/-- The pass at a match. -/
theorem scan_found {previous : Option Char} {rest text : List Char} {n : Nat}
    (found : matchAt previous rest = some (n, text)) (nonempty : rest ≠ []) :
    ∃ kept value closing after, Hit previous kept value closing after ∧ rest = kept ++ value ++ closing ++ after ∧
      n = (kept ++ value ++ closing).length ∧ kept ++ value ++ closing ≠ [] ∧
      scan previous 0 rest = kept ++ marker (utf8Len value) ++ closing ++
        scan (kept ++ value ++ closing).getLast? 0 after := by
  have positive := (matchAt_bounds found nonempty).1
  obtain ⟨kept, value, closing, after, hit, rfl, rfl, rfl⟩ := hit_of_matchAt found
  have more := List.ne_nil_of_length_pos positive
  exact ⟨kept, value, closing, after, hit, rfl, rfl, more, scan_hit more found⟩

/-- The state behind a hidden text is no escape that matters: what follows goes on in the string as it does
behind a marker. -/
theorem Hit.inString_after {previous : Option Char} {kept value closing after : List Char} {state state' : Bool}
    (hit : Hit previous kept value closing after)
    (open_ : inString state (kept ++ value ++ closing ++ after) = some state') :
    closing = [] ∧ '\\' ∉ kept ∧ '"' ∉ kept ∧ ∃ next, inString false after = some next := by
  cases hit with
  | pem begins whole =>
    rw [List.nil_append, List.append_nil, inString_append] at open_
    obtain ⟨next, hidden_, later⟩ := Option.bind_eq_some_iff.1 open_
    refine ⟨rfl, List.not_mem_nil, List.not_mem_nil, ?_⟩
    have value_eq : (value ++ after).take (pemLength (value ++ after)) = value := by rw [← whole, List.take_left]
    rcases pemLength_end (value ++ after) with all | ⟨front, ending | ending⟩
    · rw [← whole, List.length_append] at all
      rw [List.length_eq_zero_iff.1 (by omega : after.length = 0)]
      exact ⟨false, rfl⟩
    · have last : pemLineEnd = "-----\\".toList ++ ['n'] := by decide
      rw [value_eq, last, ← List.append_assoc] at ending
      rw [ending] at hidden_
      rw [inString_last (by decide) hidden_] at later
      exact ⟨_, later⟩
    · have last : "-----".toList = "----".toList ++ ['-'] := by decide
      rw [value_eq, last, ← List.append_assoc] at ending
      rw [ending] at hidden_
      rw [inString_last (by decide) hidden_] at later
      exact ⟨_, later⟩
  | json mem named close =>
    rw [List.append_assoc, List.append_assoc, List.append_assoc, inString_head mem named] at open_
    cases open_
  | compact mem boundary nonempty whole =>
    rename_i field
    have plain : '\\' ∉ field ++ ['='] ∧ '"' ∉ field ++ ['='] := by
      simp [field_foreign mem]
    rw [List.append_nil, List.append_assoc, inString_append, inString_plain plain.1 plain.2 (by simp),
      Option.bind_some] at open_
    refine ⟨rfl, plain.1, plain.2, ?_⟩
    have bare : (value ++ after).head? ≠ some '"' := by
      intro quote
      obtain ⟨body, equal⟩ := List.head?_eq_some_iff.1 quote
      rw [equal] at open_
      cases open_
    have ended := ended_of_bare whole bare
    rw [inString_append] at open_
    obtain ⟨next, -, later⟩ := Option.bind_eq_some_iff.1 open_
    cases after with
    | nil => exact ⟨false, rfl⟩
    | cons c after =>
      have white := ended_cons.1 ended
      have step (state : Bool) : quoteStep state c = some false := by
        cases state with
        | true => rfl
        | false =>
          rw [quoteStep, if_neg (by rintro rfl; exact absurd white (by decide)),
            if_neg (by rintro rfl; exact absurd white (by decide))]
      rw [inString, step] at later
      rw [inString, step]
      exact ⟨_, later⟩
  | shape mem boundary made stops long =>
    have plain := And.intro (shape_foreign mem (c := '\\') (by decide)) (shape_foreign mem (c := '"') (by decide))
    have all : ∀ shape ∈ shapes, shape.literal ≠ [] := by decide
    rw [List.append_nil, inString_append, inString_plain ?_ ?_ (List.append_ne_nil_of_left_ne_nil (all _ mem) _)] at open_
    · exact ⟨rfl, plain.1, plain.2, _, open_⟩
    · rw [List.mem_append]
      exact fun inside => inside.elim plain.1 (made_foreign made (by decide))
    · rw [List.mem_append]
      exact fun inside => inside.elim plain.2 (made_foreign made (by decide))

/-- What the pass leaves of a string that does not end does not end. -/
theorem inString_scan {rest : List Char} {previous : Option Char} {state state' : Bool}
    (open_ : inString state rest = some state') : ∃ next, inString state (scan previous 0 rest) = some next := by
  induction h : rest.length using Nat.strong_induction_on generalizing rest previous state state' with
  | _ size ih =>
    subst h
    cases rest with
    | nil => exact ⟨state, rfl⟩
    | cons c line =>
      cases found : matchAt previous (c :: line) with
      | none =>
        obtain ⟨next, step, later⟩ := Option.bind_eq_some_iff.1 open_
        rw [scan, found]
        dsimp only
        rw [inString, step, Option.bind_some]
        exact ih line.length (Nat.lt_succ_self _) later rfl
      | some result =>
        obtain ⟨kept, value, closing, after, hit, equal, -, nonempty, left⟩ := scan_found (n := result.1) found (by simp)
        rw [equal] at open_
        obtain ⟨rfl, back, quote, next, later⟩ := hit.inString_after open_
        have shorter : after.length < (c :: line).length := by
          rw [equal, List.length_append]
          exact Nat.lt_add_of_pos_left (List.length_pos_of_ne_nil nonempty)
        have front : inString state (kept ++ marker (utf8Len value)) = some false := by
          refine inString_plain ?_ ?_ (by simp [marker_ne_nil]) state
          · rw [List.mem_append]
            exact fun inside => inside.elim back (marker_unquoted _).1
          · rw [List.mem_append]
            exact fun inside => inside.elim quote (marker_unquoted _).2
        rw [left, List.append_nil, inString_append, front]
        exact ih after.length shorter later rfl

/-! ## Where the first pass copied -/

/-- Inside a name no match begins. -/
theorem quiet_name {field : List Char} (mem : field ∈ secretFields) :
    ∃ c more, field = c :: more ∧ Quiet (some c) (more ++ ['=']) = true := by
  have all : ∀ field ∈ secretFields, (field.head?.any fun c => Quiet (some c) (field.tail ++ ['='])) = true := by decide
  obtain ⟨c, first, quiet⟩ := (Option.any_eq_true _ _).1 (all field mem)
  obtain ⟨more, rfl⟩ := List.head?_eq_some_iff.1 first
  exact ⟨c, more, rfl, quiet⟩

/-- The pass copies a name whose first letter it has copied, and the equals sign. -/
theorem scan_name {previous : Option Char} {field value : List Char} (mem : field ∈ secretFields)
    (none_ : matchAt previous (field ++ '=' :: value) = none) :
    scan previous 0 (field ++ '=' :: value) = field ++ '=' :: scan (some '=') 0 value := by
  obtain ⟨c, more, rfl, quiet⟩ := quiet_name mem
  have copied := scan_quiet quiet value
  rw [List.cons_append] at none_
  rw [List.cons_append, scan, none_]
  simp only [List.append_assoc, List.singleton_append, List.getLast?_append, List.getLast?_singleton,
    Option.some_or] at copied
  exact congrArg (c :: ·) copied

/-- A quote before something that is no name of a field begins no match. -/
theorem matchAt_quote {previous : Option Char} {rest : List Char}
    (unnamed : ∀ field ∈ secretFields, ∀ after, rest ≠ field ++ '"' :: after) :
    matchAt previous ('"' :: rest) = none := by
  have plain : '"' ∉ ['a', 'c', 'p', 's', 't', 'g', 'x', 'A', 'B'] := by decide
  refine matchAt_eq_none.2 ⟨matchPem_none (by decide), matchField_eq_none.2 fun field mem => ⟨?_, ?_⟩, ?_⟩
  · cases json : matchJsonField ('"' :: rest) field with
    | none => rfl
    | some result =>
      obtain ⟨head, value, after, ⟨gap, gap', -, -, rfl⟩, equal, -⟩ := matchJsonField_eq_some (n := result.1).1 json
      simp only [List.cons_append, List.append_assoc, List.cons.injEq, true_and] at equal
      exact absurd equal (unnamed field mem _)
  · cases compact : matchCompactField previous ('"' :: rest) field with
    | none => rfl
    | some result =>
      obtain ⟨value, equal, -⟩ := matchCompactField_eq_some (n := result.1).1 compact
      obtain ⟨c, more, rfl, quote, -⟩ := field_nonempty mem
      exact absurd (List.cons.inj equal).1.symm quote
  · cases found : matchShape previous ('"' :: rest) with
    | none => rfl
    | some result =>
      obtain ⟨-, shape, mem, payload, after, equal, -⟩ := matchShape_eq_some (n := result.1) found
      have all : ∀ shape ∈ shapes, shape.literal ≠ [] := by decide
      obtain ⟨c, more, literal⟩ := List.exists_cons_of_ne_nil (all shape mem)
      rw [literal] at equal
      have inside : '"' ∈ shape.literal := by
        rw [literal, (List.cons.inj equal).1]
        exact List.mem_cons_self
      exact absurd inside (shape_foreign mem (by decide))

theorem white_foreign {c : Char} (white : isWhitespace c = true) : c ∉ starters := by
  have all : ∀ d ∈ starters, isWhitespace d = false := by decide
  intro start
  rw [all c start] at white
  cases white

theorem scan_none {previous : Option Char} {c : Char} {line : List Char}
    (none_ : matchAt previous (c :: line) = none) : scan previous 0 (c :: line) = c :: scan (some c) 0 line := by
  rw [scan, none_]

/-- A name before a quote is no match without the quote in front of it. -/
theorem matchAt_name {previous : Option Char} {field rest : List Char} (mem : field ∈ secretFields) :
    matchAt previous (field ++ '"' :: rest) = none := by
  have first : ∀ c ∈ ('"' :: rest).head?, c = '"' := by simp
  obtain ⟨c, more, begins, quote, dash⟩ := field_nonempty mem
  refine matchAt_eq_none.2 ⟨?_, matchField_eq_none.2 fun name mem' => ⟨?_, ?_⟩, ?_⟩
  · rw [begins]
    exact matchPem_none dash
  · cases json : matchJsonField (field ++ '"' :: rest) name with
    | none => rfl
    | some result =>
      obtain ⟨head, value, after, ⟨gap, gap', -, -, rfl⟩, equal, -⟩ := matchJsonField_eq_some (n := result.1).1 json
      rw [begins] at equal
      exact absurd (List.cons.inj equal).1 quote
  · cases compact : matchCompactField previous (field ++ '"' :: rest) name with
    | none => rfl
    | some result =>
      obtain ⟨value, equal, -⟩ := matchCompactField_eq_some (n := result.1).1 compact
      have inside : name ++ ['='] <+: field ++ '"' :: rest := ⟨value, by rw [equal]; simp⟩
      have foreign : '"' ∉ name ++ ['='] := by simp [field_foreign mem']
      have equals := (starts_before foreign inside first).subset (List.mem_append_right name List.mem_cons_self)
      exact absurd equals (field_foreign mem (by decide))
  · cases found : matchShape previous (field ++ '"' :: rest) with
    | none => rfl
    | some result =>
      obtain ⟨-, shape, mem', payload, after, equal, -⟩ := matchShape_eq_some (n := result.1) found
      have all : ∀ shape ∈ shapes, ∀ field ∈ secretFields, ¬ shape.literal <+: field := by decide
      have inside : shape.literal <+: field ++ '"' :: rest := ⟨_, equal.symm⟩
      exact absurd (starts_before (shape_foreign mem' (by decide)) inside first) (all shape mem' field mem)

/-- The pass copies a quoted name and the quote behind it where that opens a string without an end. -/
theorem scan_jsonHead {previous : Option Char} {field head body : List Char} (mem : field ∈ secretFields)
    (named : JsonHead field head) (none_ : matchAt previous (head ++ '"' :: body) = none)
    (open_ : closingQuote body = none) :
    scan previous 0 (head ++ '"' :: body) = head ++ '"' :: scan (some '"') 0 body := by
  obtain ⟨gap, gap', blank, blank', rfl⟩ := named
  have line : '"' :: field ++ '"' :: gap ++ ':' :: gap' ++ '"' :: body =
      '"' :: (field ++ '"' :: ((gap ++ ':' :: gap') ++ '"' :: body)) := by simp
  have between : ∀ c ∈ gap ++ ':' :: gap', c ∉ starters := by
    intro c inside
    rw [List.mem_append, List.mem_cons] at inside
    rcases inside with white | rfl | white
    · exact white_foreign (blank c white)
    · decide
    · exact white_foreign (blank' c white)
  have copiedName (rest : List Char) : scan (some '"') 0 (field ++ '"' :: rest) =
      field ++ scan field.getLast? 0 ('"' :: rest) := by
    have nothing := @matchAt_name (some '"') field rest mem
    obtain ⟨c, more, rfl, quiet⟩ := quiet_name mem
    rw [quiet_append, Bool.and_eq_true] at quiet
    rw [List.cons_append] at nothing
    rw [List.cons_append, scan_none nothing, scan_quiet quiet.1, List.getLast?_cons]
    cases more.getLast? <;> rfl
  have closed : matchAt field.getLast? ('"' :: ((gap ++ ':' :: gap') ++ '"' :: body)) = none := by
    refine matchAt_quote fun name mem' after equal => ?_
    obtain ⟨c, more, rfl, -⟩ := quiet_name mem'
    have start := starts_field mem' (rfl : c :: (more ++ '"' :: after) = (c :: more) ++ '"' :: after)
    have inside : c ∈ gap ++ ':' :: gap' := by
      cases gap with
      | nil => simp [(List.cons.inj equal).1.symm]
      | cons d gap => simp [(List.cons.inj equal).1.symm]
    exact between c inside start
  have opened : matchAt ((gap ++ ':' :: gap').getLast?.or (some '"')) ('"' :: body) = none := by
    refine matchAt_quote fun name mem' after equal => ?_
    have plain : '\\' ∉ name ∧ '"' ∉ name := ⟨field_foreign mem' (by decide), field_foreign mem' (by decide)⟩
    rw [equal, closingQuote_hop plain.1 plain.2, closingQuote_quote] at open_
    cases open_
  rw [line] at none_ ⊢
  rw [scan_none none_, copiedName, scan_none closed, scan_quiet (quiet_of_foreign between _), scan_none opened]
  simp

/-- Where the first pass found nothing, what is left begins neither a block nor a field, but for a field
that the character in front of it has made one. -/
theorem matchField_scan {previous other : Option Char} {rest : List Char} (none_ : matchAt previous rest = none)
    (fields : isBoundary other = true → ∀ field ∈ secretFields, ∀ value, rest = field ++ '=' :: value → Ended value) :
    matchPem (scan previous 0 rest) = none ∧ matchField other (scan previous 0 rest) = none := by
  obtain ⟨pem, named, -⟩ := matchAt_eq_none.1 none_
  refine ⟨matchPem_eq_none.2 fun begins => ?_, matchField_eq_none.2 fun field mem => ⟨?_, ?_⟩⟩
  · exact matchPem_eq_none.1 pem (starts_rest (by decide) begins)
  · cases json : matchJsonField (scan previous 0 rest) field with
    | none => rfl
    | some result =>
      obtain ⟨head, value, after, quoted, equal, close, -⟩ := matchJsonField_eq_some (n := result.1).1 json
      have foreign : '<' ∉ head ++ ['"'] := by simp [quoted.foreign mem]
      have begins : head ++ ['"'] <+: scan previous 0 rest := ⟨value ++ '"' :: after, by rw [equal]; simp⟩
      obtain ⟨body, line⟩ := starts_rest foreign begins
      rw [List.append_assoc, List.singleton_append] at line
      subst line
      have open_ : closingQuote body = none := by
        cases found : closingQuote body with
        | none => rfl
        | some n =>
          obtain ⟨value, after, rfl, rfl⟩ := closingQuote_split found
          have fires := matchJsonField_eq_some.2 ⟨head, value, after, quoted, rfl, found, rfl, rfl⟩
          rw [(matchField_eq_none.1 named field mem).1] at fires
          cases fires
      rw [scan_jsonHead mem quoted none_ open_, List.append_cancel_left_eq, List.cons.injEq, and_iff_right rfl] at equal
      obtain ⟨state, inside⟩ := closingQuote_eq_none.1 open_
      have still_ : closingQuote (scan (some '"') 0 body) = none := closingQuote_eq_none.2 (inString_scan inside)
      rw [equal, close] at still_
      cases still_
  · cases compact : matchCompactField other (scan previous 0 rest) field with
    | none => rfl
    | some result =>
      obtain ⟨value, equal, boundary, long, -⟩ := matchCompactField_eq_some (n := result.1).1 compact
      have foreign : '<' ∉ field ++ ['='] := by simp [field_foreign mem]
      have begins : field ++ ['='] <+: scan previous 0 rest := ⟨value, by rw [equal]; simp⟩
      obtain ⟨body, line⟩ := starts_rest foreign begins
      rw [List.append_assoc, List.singleton_append] at line
      subst line
      rw [scan_name mem none_, List.append_cancel_left_eq, List.cons.injEq, and_iff_right rfl] at equal
      rw [← equal, compactValueLen_pos, ended_scan] at long
      exact absurd (fields boundary field mem body rfl) long

/-- Where the first pass found nothing, the second one finds nothing in what is left, but for what the
character in front of it has become. -/
theorem matchAt_scan {previous other : Option Char} {rest : List Char} (none_ : matchAt previous rest = none)
    (fields : isBoundary other = true → ∀ field ∈ secretFields, ∀ value, rest = field ++ '=' :: value → Ended value)
    (unshaped : isBoundary other = true → ¬ Shaped (visible previous rest)) :
    matchAt other (scan previous 0 rest) = none := by
  obtain ⟨pem, named⟩ := matchField_scan none_ fields
  refine matchAt_eq_none.2 ⟨pem, named, ?_⟩
  cases found : matchShape other (scan previous 0 rest) with
  | none => rfl
  | some result =>
    obtain ⟨boundary, shaped⟩ := shaped_of_matchShape found
    obtain ⟨-, tail, equal, first⟩ := scan_visible previous rest
    rw [equal] at shaped
    exact absurd (shaped.before first) (unshaped boundary)

/-- After the same kind of character nothing new is found. -/
theorem matchAt_again {previous other : Option Char} {rest : List Char} (none_ : matchAt previous rest = none)
    (agree : isBoundary other = isBoundary previous) : matchAt other (scan previous 0 rest) = none := by
  refine matchAt_scan none_ (fun boundary field mem value equal => ?_) fun boundary shaped => ?_
  · by_contra open_
    have found := @matchAt_compact previous field value mem (agree ▸ boundary) open_
    rw [← equal, none_] at found
    cases found
  · have unshaped := (matchShape_eq_none (agree ▸ boundary)).1 (matchAt_eq_none.1 none_).2.2
    exact unshaped (shaped.mono (scan_visible previous rest).1)

end SupraHarness.Redact
