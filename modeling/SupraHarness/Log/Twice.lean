import SupraHarness.Log.Remains

/-!
# Redaction of a redacted line

A second pass reads the names that the first one kept and the markers that it wrote. It changes nothing
exactly where every secret field hides thirteen bytes, the length of the marker that says so, and where
no field or credential that was joined to a hidden text becomes one of its own when the marker stands in
front of it.
-/
namespace SupraHarness.Redact

open Str Scan

/-- A secret field that stands here hides thirteen bytes, and a bare marker in its place ends there. -/
def Thirteen (previous : Option Char) (rest : List Char) : Prop :=
  ∀ field ∈ secretFields,
    (∀ after ∈ stripJsonName rest field, ∀ found ∈ jsonStringValue after, found.1 = 13) ∧
      (isBoundary previous = true → ∀ value ∈ stripPrefix (field ++ ['=']) rest, 0 < compactValueLen value →
        utf8Len (value.take (compactValueLen value)) = 13 ∧ Ended (value.drop (compactValueLen value)))

/-- The value is the marker of thirteen bytes, or a PEM block without an end that is replaced by it. -/
def Marked (value : List Char) : Prop :=
  (∃ after ∈ stripPrefix (marker 13) value, Ended after) ∨ pemBegin <+: value ∧ utf8Len value = 13

/-- Nothing is joined to the character in front that would be a match after a boundary: no shape in the
text up to the next hidden one, and no field with a value that is no marker. -/
def Clear (previous : Option Char) (rest : List Char) : Prop :=
  isBoundary previous = true ∨
    matchShape none (visible previous rest) = none ∧
      ∀ field ∈ secretFields, ∀ value ∈ stripPrefix (field ++ ['=']) rest, Ended value ∨ Marked value

/-- The matches of the pass over a line hide thirteen bytes where they are fields, and what follows them is
clear. -/
def Steady : Option Char → Nat → List Char → Prop
  | _, _, [] => True
  | _, consumed + 1, c :: line => Steady (some c) consumed line
  | previous, 0, c :: line =>
    match matchAt previous (c :: line) with
    | none => Steady (some c) 0 line
    | some (consumed, _) =>
      Thirteen previous (c :: line) ∧
        Clear ((c :: line).take consumed).getLast? ((c :: line).drop consumed) ∧
        Steady (some c) (consumed - 1) line

/-! ## What the condition says at a match -/

theorem steady_none {previous : Option Char} {c : Char} {line : List Char}
    (none_ : matchAt previous (c :: line) = none) : Steady previous 0 (c :: line) ↔ Steady (some c) 0 line := by
  rw [Steady, none_]

theorem steady_over {front : List Char} (previous : Option Char) (rest : List Char) :
    Steady previous front.length (front ++ rest) ↔ Steady (front.getLast?.or previous) 0 rest := by
  induction front generalizing previous with
  | nil => rfl
  | cons c front ih =>
    rw [List.cons_append, List.length_cons, Steady, ih, List.getLast?_cons]
    cases front.getLast? <;> rfl

theorem steady_hit {previous : Option Char} {front after text : List Char} (nonempty : front ≠ [])
    (found : matchAt previous (front ++ after) = some (front.length, text)) :
    Steady previous 0 (front ++ after) ↔
      Thirteen previous (front ++ after) ∧ Clear front.getLast? after ∧ Steady front.getLast? 0 after := by
  cases front with
  | nil => exact absurd rfl nonempty
  | cons c front =>
    have cut : (c :: (front ++ after)).take (c :: front).length = c :: front ∧
        (c :: (front ++ after)).drop (c :: front).length = after := by simp
    have passed := @steady_over front (some c) after
    have last : (c :: front).getLast? = front.getLast?.or (some c) := by
      rw [List.getLast?_cons]
      cases front.getLast? <;> rfl
    rw [List.cons_append] at found ⊢
    rw [Steady, found]
    dsimp only
    rw [cut.1, cut.2, List.length_cons, Nat.add_sub_cancel, passed, last]

theorem steady_quiet {previous : Option Char} {text : List Char} (quiet : Quiet previous text = true)
    (rest : List Char) : Steady previous 0 (text ++ rest) ↔ Steady (text.getLast?.or previous) 0 rest := by
  induction text generalizing previous with
  | nil => rfl
  | cons c text ih =>
    rw [Quiet, Bool.and_eq_true] at quiet
    rw [List.cons_append, steady_none (matchAt_still _ quiet.1), ih quiet.2, List.getLast?_cons]
    cases text.getLast? <;> rfl

theorem steady_name {previous : Option Char} {field value : List Char} (mem : field ∈ secretFields)
    (none_ : matchAt previous (field ++ '=' :: value) = none) :
    Steady previous 0 (field ++ '=' :: value) ↔ Steady (some '=') 0 value := by
  obtain ⟨c, more, rfl, quiet⟩ := quiet_name mem
  have copied := steady_quiet quiet value
  rw [List.cons_append] at none_
  rw [List.cons_append, steady_none none_]
  simpa only [List.append_assoc, List.singleton_append, List.getLast?_append, List.getLast?_singleton,
    Option.some_or] using copied

/-- The text begins neither with a quote nor with a field. -/
theorem thirteen_of_foreign {previous : Option Char} {rest : List Char} (unquoted : rest.head? ≠ some '"')
    (unnamed : ∀ field ∈ secretFields, ¬ field <+: rest) : Thirteen previous rest := by
  refine fun field mem => ⟨fun after stripped => ?_, fun _ value stripped => ?_⟩
  · obtain ⟨head, ⟨gap, gap', -, -, rfl⟩, rfl⟩ := stripJsonName_head_of_eq_some stripped
    exact absurd rfl unquoted
  · rw [Option.mem_def, stripPrefix_eq_some, List.append_assoc] at stripped
    exact absurd ⟨_, stripped.symm⟩ (unnamed field mem)

theorem thirteen_json {previous : Option Char} {field head value after : List Char} (mem : field ∈ secretFields)
    (named : JsonHead field head) (close : closingQuote (value ++ '"' :: after) = some value.length) :
    Thirteen previous (head ++ '"' :: (value ++ '"' :: after)) ↔ utf8Len value = 13 := by
  have stripped := @stripJsonName_head field head (value ++ '"' :: after) '"' named (by decide)
  have string := jsonStringValue_quoted (value ++ '"' :: after)
  rw [close, Option.map_some, List.take_left] at string
  constructor
  · intro thirteen
    exact (thirteen field mem).1 _ stripped _ string
  · intro size name mem'
    refine ⟨fun body stripped' found string' => ?_, fun _ body stripped' => ?_⟩
    · have same : name = field := by
        obtain ⟨gap, gap', -, -, rfl⟩ := named
        obtain ⟨head', ⟨gap₁, gap₂, -, -, rfl⟩, equal⟩ := stripJsonName_head_of_eq_some stripped'
        simp only [List.cons_append, List.append_assoc, List.cons.injEq, true_and] at equal
        exact (before_unique (field_foreign mem (by decide)) (field_foreign mem' (by decide)) equal).1.symm
      subst same
      rw [Option.mem_def, stripped, Option.some.injEq] at stripped'
      rw [← stripped', Option.mem_def, string, Option.some.injEq] at string'
      rw [← string']
      exact size
    · obtain ⟨gap, gap', -, -, rfl⟩ := named
      rw [Option.mem_def, stripPrefix_eq_some] at stripped'
      obtain ⟨c, more, rfl, quote, -⟩ := field_nonempty mem'
      exact absurd (List.cons.inj stripped').1.symm quote

theorem thirteen_compact {previous : Option Char} {field value after : List Char} (mem : field ∈ secretFields)
    (boundary : isBoundary previous = true) (nonempty : value ≠ [])
    (whole : compactValueLen (value ++ after) = value.length) :
    Thirteen previous (field ++ '=' :: (value ++ after)) ↔ utf8Len value = 13 ∧ Ended after := by
  have stripped : stripPrefix (field ++ ['=']) (field ++ '=' :: (value ++ after)) = some (value ++ after) :=
    stripPrefix_eq_some.2 (by simp)
  have long : 0 < compactValueLen (value ++ after) := whole ▸ List.length_pos_of_ne_nil nonempty
  constructor
  · intro thirteen
    have here := (thirteen field mem).2 boundary _ stripped long
    rwa [whole, List.take_left, List.drop_left] at here
  · intro fits name mem'
    refine ⟨fun body stripped' => ?_, fun _ body stripped' _ => ?_⟩
    · obtain ⟨head, ⟨gap, gap', -, -, rfl⟩, equal⟩ := stripJsonName_head_of_eq_some stripped'
      obtain ⟨c, more, rfl, quote, -⟩ := field_nonempty mem
      exact absurd (List.cons.inj equal).1 quote
    · rw [Option.mem_def, stripPrefix_eq_some, List.append_assoc] at stripped'
      obtain ⟨-, rfl⟩ := before_unique (field_foreign mem (by decide)) (field_foreign mem' (by decide)) stripped'
      rw [whole, List.take_left, List.drop_left]
      exact fits

theorem length_le_utf8Len (text : List Char) : text.length ≤ utf8Len text := by
  induction text with
  | nil => exact Nat.zero_le _
  | cons c text ih =>
    have positive := c.utf8Size_pos
    rw [utf8Len_cons, List.length_cons]
    omega

/-- The closing marker of a block does not begin in its opening one. -/
theorem find_pemEnd {rest : List Char} {n : Nat} (begins : pemBegin <+: rest) (found : find pemEndMark rest = some n) :
    11 ≤ n := by
  have stands := find_starts found
  obtain ⟨more, rfl⟩ := begins
  have inside : ∀ n < 11, ¬ pemEndMark.take (11 - n) <+: pemBegin.drop n := by decide
  by_contra small
  have bound : n ≤ pemBegin.length := by
    have eleven : pemBegin.length = 11 := by decide
    omega
  rw [List.drop_append_of_le_length bound] at stands
  refine inside n (by omega) ?_
  refine List.prefix_of_prefix_length_le ((List.take_prefix _ _).trans stands) (List.prefix_append _ _) ?_
  have eleven : pemBegin.length = 11 := by decide
  rw [List.length_take, List.length_drop, eleven]
  omega

/-- A block of thirteen bytes has no end. -/
theorem pemLength_short {rest : List Char} (begins : pemBegin <+: rest) (short : pemLength rest ≤ 13) :
    pemLength rest = rest.length := by
  unfold pemLength at short ⊢
  have seven : pemLineEnd.length = 7 := rfl
  cases close : pemClose rest with
  | some n =>
    obtain ⟨mark, found, more⟩ := Option.bind_eq_some_iff.1 close
    obtain ⟨at_, -, rfl⟩ := Option.map_eq_some_iff.1 more
    have far := find_pemEnd begins found
    rw [close] at short
    simp only [Option.some_or, Option.getD_some] at short
    omega
  | none =>
    cases dashes : pemDashes rest with
    | some n =>
      obtain ⟨mark, found, more⟩ := Option.bind_eq_some_iff.1 dashes
      obtain ⟨at_, -, rfl⟩ := Option.map_eq_some_iff.1 more
      have far := find_pemEnd begins found
      rw [close, dashes] at short
      simp only [Option.none_or, Option.getD_some] at short
      omega
    | none => rfl

theorem unnamed_of_dash {rest : List Char} (begins : pemBegin <+: rest) :
    rest.head? = some '-' ∧ ∀ field ∈ secretFields, ¬ field <+: rest := by
  obtain ⟨more, rfl⟩ := begins
  refine ⟨rfl, fun field mem starts => ?_⟩
  obtain ⟨c, name, rfl, -, dash⟩ := field_nonempty mem
  obtain ⟨tail, equal⟩ := starts
  exact dash (List.cons.inj equal).1

theorem shape_unnamed {shape : Shape} (mem : shape ∈ shapes) {field rest : List Char} (mem' : field ∈ secretFields)
    (literal : shape.literal <+: rest) (name : field <+: rest) : False := by
  have all : ∀ shape ∈ shapes, ∀ field ∈ secretFields, ¬ shape.literal <+: field ∧ ¬ field <+: shape.literal := by
    decide
  obtain ⟨left, right⟩ := all shape mem field mem'
  rcases List.prefix_or_prefix_of_prefix literal name with front | front
  · exact left front
  · exact right front

/-! ## The second pass over what the first one leaves -/

/-- The second pass leaves the rest of the line as the first one does. -/
def Kept (other previous : Option Char) (rest : List Char) : Prop :=
  scan other 0 (scan previous 0 rest) = scan previous 0 rest

theorem kept_none {previous other : Option Char} {c : Char} {line : List Char}
    (none_ : matchAt previous (c :: line) = none) (again : matchAt other (scan previous 0 (c :: line)) = none) :
    Kept other previous (c :: line) ↔ Kept (some c) (some c) line := by
  rw [scan_none none_] at again
  rw [Kept, scan_none none_, scan_none again, List.cons.injEq, and_iff_right rfl, Kept]

/-- At a match the second pass keeps what is left where the field, if it is one, hides thirteen bytes. -/
theorem kept_hit {previous other : Option Char} {rest : List Char} {result : Nat × List Char} (nonempty : rest ≠ [])
    (found : matchAt previous rest = some result) (agree : isBoundary previous = true → isBoundary other = true)
    (later : ∀ after : List Char, after.length < rest.length → ∀ last other', isBoundary other' = true →
      (Kept other' last after ↔ Clear last after ∧ Steady last 0 after)) :
    Kept other previous rest ↔ Steady previous 0 rest := by
  obtain ⟨kept, value, closing, after, hit, rfl, size, more, left⟩ := scan_found (n := result.1) found nonempty
  have matched : matchAt previous (kept ++ value ++ closing ++ after) = some ((kept ++ value ++ closing).length, result.2) := by
    rw [found, ← size]
  have shorter : after.length < (kept ++ value ++ closing ++ after).length := by
    rw [List.length_append]
    exact Nat.lt_add_of_pos_left (List.length_pos_of_ne_nil more)
  have onward := later after shorter (kept ++ value ++ closing).getLast?
  rw [Kept, left, steady_hit more matched]
  clear left found matched
  cases hit with
  | pem begins whole =>
    have foreign := unnamed_of_dash begins
    have thirteen : Thirteen previous ([] ++ value ++ [] ++ after) := by
      refine thirteen_of_foreign ?_ ?_
      · simp only [List.nil_append, List.append_nil, foreign.1]
        decide
      · simpa using foreign.2
    rw [and_iff_right thirteen, ← onward (some '>') (by decide), Kept, List.nil_append, List.append_nil, scan_marker,
      List.append_cancel_left_eq]
  | json mem named close =>
    rename_i field head
    have line : head ++ ['"'] ++ value ++ ['"'] ++ after = head ++ '"' :: (value ++ '"' :: after) := by simp
    have same := @scan_json other field head (scan (head ++ ['"'] ++ value ++ ['"']).getLast? 0 after) (utf8Len value) mem
      named
    rw [line, thirteen_json mem named close, ← onward (some '"') (by decide)]
    simpa [Kept] using same
  | compact mem boundary hides whole =>
    rename_i field
    generalize (field ++ ['='] ++ value ++ []).getLast? = last at onward ⊢
    have line : field ++ ['='] ++ value ++ [] ++ after = field ++ '=' :: (value ++ after) := by simp
    have out : field ++ ['='] ++ marker (utf8Len value) ++ [] ++ scan last 0 after =
        field ++ '=' :: (marker (utf8Len value) ++ scan last 0 after) := by simp
    have open_ : ¬ Ended (marker (utf8Len value) ++ scan last 0 after) := by
      rw [marker_eq, List.cons_append, ended_cons]
      decide
    rw [line, out, thirteen_compact mem boundary hides whole, scan_compact mem (agree boundary) open_,
      ← onward (some '>') (by decide), Kept]
    constructor
    · rintro ⟨rest, equal, ended, same⟩
      have thirteen := marker_inj equal
      rw [thirteen, List.append_cancel_left_eq] at equal
      rw [← equal] at ended same
      exact ⟨⟨thirteen, ended_scan.1 ended⟩, same⟩
    · rintro ⟨⟨thirteen, ended⟩, same⟩
      exact ⟨scan last 0 after, by rw [thirteen], ended_scan.2 ended, same⟩
  | shape mem boundary made stops long =>
    rename_i kind
    have thirteen : Thirteen previous (kind.literal ++ value ++ [] ++ after) := by
      have literal : kind.literal <+: kind.literal ++ value ++ [] ++ after := ⟨value ++ after, by simp⟩
      refine thirteen_of_foreign ?_ fun field mem' name => shape_unnamed mem mem' literal name
      intro quote
      obtain ⟨rest, equal⟩ := List.head?_eq_some_iff.1 quote
      have all : ∀ shape ∈ shapes, shape.literal ≠ [] := by decide
      obtain ⟨c, tail, begins⟩ := List.exists_cons_of_ne_nil (all kind mem)
      rw [begins] at equal
      have inside : '"' ∈ kind.literal := by
        rw [begins, ← (List.cons.inj equal).1]
        exact List.mem_cons_self
      exact shape_foreign mem (by decide) inside
    rw [and_iff_right thirteen, ← onward (some '>') (by decide), Kept, List.append_nil, List.append_assoc,
      scan_literal mem, List.append_cancel_left_eq, List.append_cancel_left_eq]

theorem steady_nil (previous : Option Char) : Steady previous 0 [] := trivial

theorem clear_of_unnamed {previous : Option Char} {rest : List Char} (unnamed : ∀ field ∈ secretFields, ¬ field <+: rest)
    (unshaped : ¬ Shaped (visible previous rest)) : Clear previous rest := by
  refine .inr ⟨(matchShape_eq_none rfl).2 unshaped, fun field mem value stripped => ?_⟩
  rw [Option.mem_def, stripPrefix_eq_some, List.append_assoc] at stripped
  exact absurd ⟨_, stripped.symm⟩ (unnamed field mem)

/-- Before a match that does not need a boundary the rest is clear. -/
theorem clear_hit {previous : Option Char} {rest : List Char} {result : Nat × List Char}
    (found : matchAt previous rest = some result) : Clear previous rest := by
  by_cases boundary : isBoundary previous = true
  · exact .inl boundary
  · obtain ⟨kept, value, closing, after, hit, rfl, -⟩ := hit_of_matchAt (n := result.1) found
    have foreign : ∀ c ∈ (kept ++ value ++ closing ++ after).head?, c = '-' ∨ c = '"' := by
      cases hit with
      | pem begins =>
        rw [List.nil_append, List.append_nil, (unnamed_of_dash begins).1]
        rintro c ⟨⟩
        exact .inl rfl
      | json mem named =>
        obtain ⟨gap, gap', -, -, rfl⟩ := named
        rintro c ⟨⟩
        exact .inr rfl
      | compact mem bounded => exact absurd bounded boundary
      | shape mem bounded => exact absurd bounded boundary
    generalize kept ++ value ++ closing ++ after = rest at foreign
    refine clear_of_unnamed (fun field mem name => ?_) fun shaped => ?_
    · obtain ⟨c, more, rfl, quote, dash⟩ := field_nonempty mem
      obtain ⟨tail, rfl⟩ := name
      exact (foreign c rfl).elim dash quote
    · obtain ⟨shape, mem, payload, begins, -⟩ := shaped.mono (scan_visible previous rest).1
      have all : ∀ shape ∈ shapes, (shape.literal.head?.any fun c => c ≠ '-' ∧ c ≠ '"') = true := by decide
      obtain ⟨c, first, plain⟩ := (Option.any_eq_true _ _).1 (all shape mem)
      obtain ⟨dash, quote⟩ : c ≠ '-' ∧ c ≠ '"' := of_decide_eq_true plain
      obtain ⟨more, literal⟩ := List.head?_eq_some_iff.1 first
      obtain ⟨tail, rfl⟩ := begins
      rw [literal] at foreign
      exact (foreign c rfl).elim dash quote

theorem clear_name {previous : Option Char} {field value : List Char} (mem : field ∈ secretFields)
    (inside : isBoundary previous = false) : Clear previous (field ++ '=' :: value) ↔ Ended value ∨ Marked value := by
  have stripped : stripPrefix (field ++ ['=']) (field ++ '=' :: value) = some value := stripPrefix_eq_some.2 (by simp)
  constructor
  · rintro (boundary | ⟨-, fields⟩)
    · rw [inside] at boundary
      cases boundary
    · exact fields field mem value stripped
  · intro either
    refine .inr ⟨(matchShape_eq_none rfl).2 fun shaped => ?_, fun name mem' body stripped' => ?_⟩
    · obtain ⟨shape, known, payload, begins, -⟩ := shaped.mono (scan_visible previous _).1
      exact shape_unnamed known mem ((List.prefix_append _ _).trans begins) (List.prefix_append _ _)
    · rw [Option.mem_def, stripPrefix_eq_some, List.append_assoc] at stripped'
      obtain ⟨-, rfl⟩ := before_unique (field_foreign mem (by decide)) (field_foreign mem' (by decide)) stripped'
      exact either

/-- A block of thirteen bytes is replaced by the marker of thirteen bytes. -/
theorem scan_block {previous : Option Char} {value : List Char} (begins : pemBegin <+: value)
    (size : utf8Len value = 13) : scan previous 0 value = marker 13 ∧ Steady previous 0 value := by
  have whole : pemLength value = value.length :=
    pemLength_short begins ((pemLength_le _).trans ((length_le_utf8Len _).trans size.le))
  have found : matchAt previous (value ++ []) = some (value.length, marker 13) := by
    rw [List.append_nil, matchAt, matchPem, if_pos (List.isPrefixOf_iff_prefix.2 begins), whole, List.take_length, size]
    rfl
  have nonempty : value ≠ [] := by
    rintro rfl
    exact absurd size (by decide)
  have foreign := unnamed_of_dash begins
  have thirteen : Thirteen previous (value ++ []) := by
    rw [List.append_nil]
    refine thirteen_of_foreign ?_ foreign.2
    rw [foreign.1]
    decide
  have left := scan_hit nonempty found
  have steady := (steady_hit nonempty found).2 ⟨thirteen, clear_of_unnamed ?_ ?_, steady_nil _⟩
  · rw [List.append_nil] at left steady
    exact ⟨left.trans (List.append_nil _), steady⟩
  · intro field mem name
    obtain ⟨c, more, rfl, -⟩ := field_nonempty mem
    exact absurd (List.prefix_nil.1 name) (by simp)
  · intro shaped
    have bound := shaped.long
    rw [visible] at bound
    exact absurd bound (by decide)

/-- What the pass leaves of a value is the marker of thirteen bytes and stays. -/
theorem marked_iff {value : List Char} (later : ∀ after : List Char, after.length < value.length →
      (Kept (some '>') (some '>') after ↔ Steady (some '>') 0 after)) :
    (∃ rest, scan (some '=') 0 value = marker 13 ++ rest ∧ Ended rest ∧ scan (some '>') 0 rest = rest) ↔
      Marked value ∧ Steady (some '=') 0 value := by
  have literal (after : List Char) (equal : value = marker 13 ++ after) :
      scan (some '=') 0 value = marker 13 ++ scan (some '>') 0 after ∧
        (Steady (some '=') 0 value ↔ Kept (some '>') (some '>') after) := by
    have shorter : after.length < value.length := by
      rw [equal, List.length_append]
      exact Nat.lt_add_of_pos_left (List.length_pos_of_ne_nil (marker_ne_nil 13))
    have steady := steady_quiet (quiet_marker (some '=') 13) after
    rw [getLast?_marker, Option.some_or, ← later after shorter] at steady
    subst equal
    exact ⟨scan_marker _ _ _, steady⟩
  constructor
  · rintro ⟨rest, equal, ended, same⟩
    cases found : matchAt (some '=') value with
    | some result =>
      have nonempty : value ≠ [] := by
        rintro rfl
        exact absurd (congrArg List.length equal) (by simp [scan, marker_eq])
      obtain ⟨kept, hid, closing, after, hit, line, -, -, left⟩ := scan_found (n := result.1) found nonempty
      have nothing : kept = [] := by
        cases kept with
        | nil => rfl
        | cons c kept =>
          rw [left, marker_eq 13] at equal
          exact absurd (List.mem_cons_self) ((List.cons.inj equal).1 ▸ hit.foreign)
      obtain ⟨begins, rfl, whole⟩ := hit.pem_of_nil nothing
      subst nothing
      rw [left, List.nil_append, List.append_nil] at equal
      have size := marker_inj equal
      rw [List.nil_append, List.append_nil] at line
      have short := pemLength_short begins (by rw [← whole, ← size]; exact length_le_utf8Len _)
      have empty : after = [] := by
        rw [← whole, List.length_append] at short
        exact List.length_eq_zero_iff.1 (by omega)
      rw [empty, List.append_nil] at line begins
      subst line
      exact ⟨.inr ⟨begins, size⟩, (scan_block begins size).2⟩
    | none =>
      cases value with
      | nil => exact absurd (congrArg List.length equal) (by simp [scan, marker_eq])
      | cons c line =>
        rw [scan_none found, marker_eq, List.cons_append, List.cons.injEq] at equal
        obtain ⟨rfl, equal⟩ := equal
        have word : '<' ∉ markerWord ++ (Nat.toDigits 10 13 ++ ['>']) := by decide
        obtain ⟨after, rfl⟩ := starts_rest word ⟨rest, equal.symm⟩
        have whole : '<' :: (markerWord ++ (Nat.toDigits 10 13 ++ ['>']) ++ after) = marker 13 ++ after := by
          rw [marker_eq, List.cons_append]
        obtain ⟨left, steady⟩ := literal after whole
        have rest_eq : rest = scan (some '>') 0 after := by
          rw [scan_none found, equal, marker_eq, List.cons_append, List.cons.injEq, List.append_cancel_left_eq] at left
          exact left.2
        rw [rest_eq] at ended same
        refine ⟨.inl ⟨after, stripPrefix_eq_some.2 whole, ended_scan.1 ended⟩, steady.2 same⟩
  · rintro ⟨⟨after, stripped, ended⟩ | ⟨begins, size⟩, steady⟩
    · obtain ⟨left, same⟩ := literal after (stripPrefix_eq_some.1 stripped)
      exact ⟨_, left, ended_scan.2 ended, same.1 steady⟩
    · exact ⟨[], by rw [(scan_block begins size).1, List.append_nil], ended_nil, rfl⟩

/-- A shape that has become one does not stay. -/
theorem shaped_changes {previous other : Option Char} {rest : List Char} (boundary : isBoundary other = true)
    (none_ : matchAt previous rest = none)
    (fields : isBoundary other = true → ∀ field ∈ secretFields, ∀ value, rest = field ++ '=' :: value → Ended value)
    (shaped : Shaped (visible previous rest)) : ¬ Kept other previous rest := by
  intro kept
  obtain ⟨pem, field⟩ := matchField_scan none_ fields
  have out : Shaped (scan previous 0 rest) := by
    obtain ⟨-, tail, equal, -⟩ := scan_visible previous rest
    rw [equal]
    exact shaped.mono (List.prefix_append _ _)
  rw [Kept] at kept
  generalize scan previous 0 rest = text at *
  cases found : matchShape other text with
  | none => exact (matchShape_eq_none boundary).1 found out
  | some result =>
    obtain ⟨-, shape, mem, payload, after, rfl, made, -, long, -, replaced⟩ := matchShape_eq_some (n := result.1) found
    have all : ∀ shape ∈ shapes, 16 ≤ shape.minPayload ∧ shape.literal ≠ [] := by decide
    have matched : matchAt other (shape.literal ++ (payload ++ after)) = some (result.1, result.2) := by
      rw [matchAt, pem, field]
      exact found
    rw [scan_match (by simp [(all shape mem).2]) matched, replaced, List.append_assoc, List.append_cancel_left_eq,
      marker_eq] at kept
    cases payload with
    | nil =>
      rw [List.length_nil] at long
      have enough := (all shape mem).1
      omega
    | cons c payload =>
      have opens : '<' ∈ c :: payload := by
        rw [← (List.cons.inj kept).1]
        exact List.mem_cons_self
      exact made_foreign made (by decide) opens

/-- A field or a shape that was joined to a hidden text is one behind a marker. -/
theorem kept_joined {previous other : Option Char} {c : Char} {line : List Char}
    (none_ : matchAt previous (c :: line) = none) (inside : isBoundary previous = false)
    (boundary : isBoundary other = true)
    (later : ∀ after : List Char, after.length < (c :: line).length → ∀ last,
      (Kept last last after ↔ Steady last 0 after)) :
    Kept other previous (c :: line) ↔ Clear previous (c :: line) ∧ Steady previous 0 (c :: line) := by
  by_cases named : ∃ field ∈ secretFields, ∃ value, c :: line = field ++ '=' :: value ∧ ¬ Ended value
  · obtain ⟨field, mem, value, equal, open_⟩ := named
    have shorter : value.length < (c :: line).length := by
      rw [equal, List.length_append, List.length_cons]
      omega
    rw [equal] at none_ ⊢
    rw [Kept, scan_name mem none_, scan_compact mem boundary (by rwa [ended_scan]), clear_name mem inside,
      or_iff_right open_, steady_name mem none_]
    exact marked_iff fun after less => later after (less.trans shorter) _
  · push Not at named
    by_cases shaped : Shaped (visible previous (c :: line))
    · refine iff_of_false (fun kept => ?_) ?_
      · exact shaped_changes boundary none_ (fun _ field mem value equal => named field mem value equal) shaped kept
      · rintro ⟨bounded | ⟨unshaped, -⟩, -⟩
        · rw [inside] at bounded
          cases bounded
        · exact (matchShape_eq_none rfl).1 unshaped shaped
    · have again := @matchAt_scan previous other (c :: line) none_
        (fun _ field mem value equal => named field mem value equal) fun _ => shaped
      have clear : Clear previous (c :: line) := by
        refine .inr ⟨(matchShape_eq_none rfl).2 shaped, fun field mem value stripped => ?_⟩
        rw [Option.mem_def, stripPrefix_eq_some, List.append_assoc] at stripped
        exact .inl (named field mem value stripped)
      rw [kept_none none_ again, and_iff_right clear, steady_none none_]
      exact later line (Nat.lt_succ_self _) _

/-- The second pass keeps what the first one leaves exactly where the first one is steady. -/
theorem kept_iff (previous other : Option Char) (rest : List Char) :
    (isBoundary other = isBoundary previous → (Kept other previous rest ↔ Steady previous 0 rest)) ∧
      (isBoundary other = true → (Kept other previous rest ↔ Clear previous rest ∧ Steady previous 0 rest)) := by
  induction h : rest.length using Nat.strong_induction_on generalizing rest previous other with
  | _ size ih =>
    subst h
    cases rest with
    | nil =>
      have clear : Clear previous [] := by
        refine clear_of_unnamed (fun field mem name => ?_) fun shaped => ?_
        · obtain ⟨c, more, rfl, -⟩ := field_nonempty mem
          exact absurd (List.prefix_nil.1 name) (by simp)
        · exact absurd shaped.long (by rw [visible]; decide)
      exact ⟨fun _ => iff_of_true rfl (steady_nil _), fun _ => iff_of_true rfl ⟨clear, steady_nil _⟩⟩
    | cons c line =>
      cases found : matchAt previous (c :: line) with
      | some result =>
        have hit := @kept_hit previous other (c :: line) result (by simp) found
        have later (after : List Char) (shorter : after.length < (c :: line).length) (last other' : Option Char) :=
          (ih after.length shorter last other' after rfl).2
        refine ⟨fun agree => hit (fun boundary => agree ▸ boundary) later, fun boundary => ?_⟩
        rw [hit (fun _ => boundary) later, and_iff_right (clear_hit found)]
      | none =>
        have later (after : List Char) (shorter : after.length < (c :: line).length) (last : Option Char) :=
          (ih after.length shorter last last after rfl).1 rfl
        have same (agree : isBoundary other = isBoundary previous) :
            Kept other previous (c :: line) ↔ Steady previous 0 (c :: line) := by
          rw [kept_none found (matchAt_again found agree), steady_none found]
          exact later line (Nat.lt_succ_self _) _
        refine ⟨same, fun boundary => ?_⟩
        cases inside : isBoundary previous with
        | false => exact kept_joined found inside boundary later
        | true => rw [same (boundary.trans inside.symm), and_iff_right (.inl inside)]

/-! ## The pre-check -/

/-- Every match has a text in it that the pre-check looks for. -/
theorem mightContainSecret_of_matchAt {previous : Option Char} {rest : List Char} {result : Nat × List Char}
    (found : matchAt previous rest = some result) (front : List Char) : mightContainSecret (front ++ rest) = true := by
  rw [mightContainSecret, Bool.or_eq_true, Bool.or_eq_true, List.any_eq_true, List.any_eq_true]
  obtain ⟨kept, value, closing, after, hit, rfl, -⟩ := hit_of_matchAt (n := result.1) found
  cases hit with
  | pem begins =>
    obtain ⟨more, equal⟩ := begins
    rw [List.nil_append, List.append_nil, ← equal]
    exact .inr <| find_infix front pemBegin more
  | @json field head _ _ mem named =>
    obtain ⟨gap, gap', -, -, rfl⟩ := named
    have here := find_infix (front ++ ['"']) field ('"' :: gap ++ ':' :: gap' ++ ['"'] ++ value ++ ['"'] ++ after)
    exact .inl (.inr ⟨field, mem, by simpa using here⟩)
  | @compact field _ _ mem =>
    have here := find_infix front field (['='] ++ value ++ [] ++ after)
    exact .inl (.inr ⟨field, mem, by simpa using here⟩)
  | @shape shape _ _ mem =>
    have here := find_infix front shape.literal (value ++ [] ++ after)
    exact .inl (.inl ⟨shape, mem, by simpa using here⟩)

theorem scan_passed {previous : Option Char} {front rest : List Char}
    (passed : mightContainSecret (front ++ rest) = false) : scan previous 0 rest = rest := by
  induction rest generalizing front previous with
  | nil => rfl
  | cons c rest ih =>
    have none_ : matchAt previous (c :: rest) = none := by
      cases found : matchAt previous (c :: rest) with
      | none => rfl
      | some result =>
        rw [mightContainSecret_of_matchAt found] at passed
        cases passed
    have onward := @ih (some c) (front ++ [c]) (by simpa using passed)
    rw [scan_none none_, onward]

/-- The pre-check turns away only lines that the pass copies. -/
theorem redact_eq_scan (line : List Char) : redact line = scan none 0 line := by
  rw [redact]
  cases passed : mightContainSecret line with
  | true => rfl
  | false => exact (@scan_passed none [] line passed).symm

/-- Redaction changes a redacted line no more exactly where the pass over the line is steady: where the
fields hide thirteen bytes and what follows a match is clear. -/
theorem redact_redact_iff (line : List Char) : redact (redact line) = redact line ↔ Steady none 0 line := by
  rw [redact_eq_scan, redact_eq_scan]
  exact (kept_iff none none line).1 rfl

/-- The marker of three bytes is taken for a value of twelve. -/
theorem redact_changes : redact (redact "api_key=abc".toList) ≠ redact "api_key=abc".toList := by decide

end SupraHarness.Redact
