import SupraHarness.Log.Lines

/-!
# What redaction hides

A secret field is replaced as a whole when the pass stands at its opening quote. It does unless a match
that began in the text before the field reaches into it. Where every match ends in its own text, lines
that differ in secrets only have one redaction; where one does not, there are secrets that show.
-/
namespace SupraHarness.Redact

open Str Scan

theorem closingQuote_hop {text : List Char} (back : '\\' ∉ text) (quote : '"' ∉ text) (rest : List Char) :
    closingQuote (text ++ rest) = (closingQuote rest).map (· + text.length) := by
  induction text with
  | nil => simp
  | cons c text ih =>
    simp only [List.mem_cons, not_or] at back quote
    rw [List.cons_append, closingQuote_other (Ne.symm back.1) (Ne.symm quote.1), ih back.2 quote.2,
      Option.map_map]
    rfl

theorem digitChar_plain : ∀ n < 16, Nat.digitChar n ≠ '\\' ∧ Nat.digitChar n ≠ '"' := by decide

theorem closingQuote_escapeChar (c : Char) (rest : List Char) :
    closingQuote (escapeChar c ++ rest) = (closingQuote rest).map (· + (escapeChar c).length) := by
  unfold escapeChar
  by_cases quote : c = '"'
  · rw [if_pos quote]
    exact closingQuote_escape _ _
  rw [if_neg quote]
  by_cases back : c = '\\'
  · rw [if_pos back]
    exact closingQuote_escape _ _
  rw [if_neg back]
  split
  case isTrue => exact closingQuote_escape _ _
  case isFalse =>
  split
  case isTrue => exact closingQuote_escape _ _
  case isFalse =>
  split
  case isTrue => exact closingQuote_escape _ _
  case isFalse =>
  split
  case isTrue => exact closingQuote_escape _ _
  case isFalse =>
  split
  case isTrue => exact closingQuote_escape _ _
  case isFalse =>
  split
  case isTrue control =>
    have high := digitChar_plain (c.toNat / 16) (by omega)
    have low := digitChar_plain (c.toNat % 16) (by omega)
    have hop := @closingQuote_hop ['0', '0', (c.toNat / 16).digitChar, (c.toNat % 16).digitChar]
      (by simp [Ne.symm high.1, Ne.symm low.1]) (by simp [Ne.symm high.2, Ne.symm low.2]) rest
    rw [List.cons_append, List.cons_append, closingQuote_escape, hop, Option.map_map]
    rfl
  case isFalse => exact closingQuote_other back quote rest

/-- The quote after an escaped text is the one that closes it. -/
theorem closingQuote_escaped (text rest : List Char) :
    closingQuote (escape text ++ '"' :: rest) = some (escape text).length := by
  induction text with
  | nil => exact closingQuote_quote rest
  | cons c text ih =>
    rw [escape, List.flatMap_cons, List.append_assoc, closingQuote_escapeChar]
    change (closingQuote (escape text ++ '"' :: rest)).map _ = _
    rw [ih, Option.map_some, List.length_append, Nat.add_comm]
    rfl

/-- A string that is open where a delimiter ends the text is closed by the next quote. -/
theorem closingQuote_open {body : List Char} (h : closingQuote body = none)
    (delimited : body = [] ∨ Delimited body) (rest : List Char) :
    closingQuote (body ++ '"' :: rest) = some body.length := by
  induction body using closingQuote.induct with
  | case1 => exact closingQuote_quote rest
  | case2 =>
    rcases delimited with empty | ⟨init, last, eq, mem⟩
    · cases empty
    · have last_eq := (@List.append_inj' _ [] _ _ _ eq rfl).2
      rw [List.cons.injEq] at last_eq
      rw [← last_eq.1] at mem
      exact absurd mem (by decide)
  | case3 c body ih =>
    rw [closingQuote_escape, Option.map_eq_none_iff] at h
    have shorter : body = [] ∨ Delimited body := by
      rcases delimited with empty | delimited
      · cases empty
      · exact (delimited.of_cons (by decide)).tail
    rw [List.cons_append, List.cons_append, closingQuote_escape, ih h shorter]
    rfl
  | case4 body _ =>
    rw [closingQuote_quote] at h
    cases h
  | case5 c body back quote ih =>
    rw [closingQuote_other back quote, Option.map_eq_none_iff] at h
    have shorter : body = [] ∨ Delimited body := by
      rcases delimited with empty | delimited
      · cases empty
      · exact delimited.tail
    rw [List.cons_append, closingQuote_other back quote, ih h shorter]
    rfl

theorem findSome?_unique {α β : Type} {f : α → Option β} {l : List α} {x : α} (mem : x ∈ l)
    (others : ∀ y ∈ l, y ≠ x → f y = none) : l.findSome? f = f x := by
  induction l with
  | nil => cases mem
  | cons y l ih =>
    rw [List.findSome?_cons]
    by_cases same : y = x
    · subst same
      cases found : f y with
      | some b => rfl
      | none =>
        by_cases again : y ∈ l
        · exact (ih again fun z mem' => others z (List.mem_cons_of_mem _ mem')).trans found
        · refine List.findSome?_eq_none_iff.2 fun z mem' => others z (List.mem_cons_of_mem _ mem') ?_
          rintro rfl
          exact again mem'
    · rw [others y List.mem_cons_self same]
      have mem : x ∈ l := (List.mem_cons.1 mem).resolve_left (Ne.symm same)
      exact ih mem fun z mem' => others z (List.mem_cons_of_mem _ mem')

theorem plain_field {field : List Char} (mem : field ∈ secretFields) :
    '"' ∉ field ∧ '=' ∉ field ∧ '\\' ∉ field ∧ ∀ c ∈ field, isAsciiWhitespace c = false :=
  (by decide : ∀ field ∈ secretFields,
    '"' ∉ field ∧ '=' ∉ field ∧ '\\' ∉ field ∧ ∀ c ∈ field, isAsciiWhitespace c = false) field mem

theorem field_nonempty {field : List Char} (mem : field ∈ secretFields) :
    ∃ c rest, field = c :: rest ∧ c ≠ '"' ∧ c ≠ '-' := by
  have start : ∀ field ∈ secretFields,
      field ≠ [] ∧ field.head? ≠ some '"' ∧ field.head? ≠ some '-' := by decide
  obtain ⟨nonempty, quote, dash⟩ := start field mem
  cases field with
  | nil => exact absurd rfl nonempty
  | cons c rest => exact ⟨c, rest, rfl, by simpa using quote, by simpa using dash⟩

/-- At a quoted name the JSON rule decides. -/
theorem matchField_quoted {previous : Option Char} {field rest : List Char} (mem : field ∈ secretFields) :
    matchField previous ('"' :: field ++ '"' :: rest) = matchJsonField ('"' :: field ++ '"' :: rest) field := by
  have bare (name : List Char) (mem : name ∈ secretFields) :
      matchCompactField previous ('"' :: field ++ '"' :: rest) name = none := by
    cases found : matchCompactField previous ('"' :: field ++ '"' :: rest) name with
    | none => rfl
    | some result =>
      obtain ⟨after, start, -⟩ := Option.bind_eq_some_iff.1 found
      rw [stripPrefix_eq_some] at start
      obtain ⟨c, more, rfl, quote, -⟩ := field_nonempty mem
      simp only [List.cons_append, List.cons.injEq] at start
      exact absurd start.1.symm quote
  have step := findSome?_unique (f := fun name =>
    (matchJsonField ('"' :: field ++ '"' :: rest) name).or
      (matchCompactField previous ('"' :: field ++ '"' :: rest) name)) mem fun name mem' differs => ?_
  · rw [matchField, step, bare field mem, Option.or_none]
  · rw [bare name mem', Option.or_none]
    cases found : matchJsonField ('"' :: field ++ '"' :: rest) name with
    | none => rfl
    | some result =>
      obtain ⟨after, stripped, -⟩ := Option.bind_eq_some_iff.1 found
      obtain ⟨close, colon, eq, -⟩ := stripJsonName_eq_some stripped
      simp only [List.cons_append, List.cons.injEq, true_and] at eq
      exact absurd (before_unique (plain_field mem).1 (plain_field mem').1 eq).1.symm differs

/-- At a name and an equals sign the compact rule decides. -/
theorem matchField_bare {previous : Option Char} {field rest : List Char} (mem : field ∈ secretFields) :
    matchField previous (field ++ '=' :: rest) = matchCompactField previous (field ++ '=' :: rest) field := by
  have quoted (name : List Char) : matchJsonField (field ++ '=' :: rest) name = none := by
    cases found : matchJsonField (field ++ '=' :: rest) name with
    | none => rfl
    | some result =>
      obtain ⟨after, stripped, -⟩ := Option.bind_eq_some_iff.1 found
      obtain ⟨close, colon, eq, -⟩ := stripJsonName_eq_some stripped
      obtain ⟨c, more, rfl, quote, -⟩ := field_nonempty mem
      simp only [List.cons_append, List.cons.injEq] at eq
      exact absurd eq.1 quote
  have step := findSome?_unique (f := fun name =>
    (matchJsonField (field ++ '=' :: rest) name).or
      (matchCompactField previous (field ++ '=' :: rest) name)) mem fun name mem' differs => ?_
  · rw [matchField, step, quoted, Option.none_or]
  · rw [quoted, Option.none_or]
    cases found : matchCompactField previous (field ++ '=' :: rest) name with
    | none => rfl
    | some result =>
      obtain ⟨after, start, found⟩ := Option.bind_eq_some_iff.1 found
      obtain ⟨value, equals, -⟩ := Option.bind_eq_some_iff.1 found
      rw [stripPrefix_eq_some] at start equals
      rw [equals] at start
      exact absurd (before_unique (plain_field mem).2.1 (plain_field mem').2.1 start).1.symm differs

theorem matchPem_none {c : Char} {rest : List Char} (h : c ≠ '-') : matchPem (c :: rest) = none := by
  unfold matchPem
  rw [if_neg]
  rw [List.isPrefixOf_iff_prefix]
  rintro ⟨more, eq⟩
  exact h (List.cons.inj eq).1.symm

theorem matchAt_field {previous : Option Char} {c : Char} {rest : List Char} {found : Nat × List Char}
    (dash : c ≠ '-') (h : matchField previous (c :: rest) = some found) :
    matchAt previous (c :: rest) = some found := by
  rw [matchAt, matchPem_none dash, Option.none_or, h]
  rfl

theorem scan_match {previous : Option Char} {line replacement : List Char} {n : Nat}
    (nonempty : line ≠ []) (h : matchAt previous line = some (n, replacement)) :
    scan previous 0 line = replacement ++ scan line.head? (n - 1) line.tail := by
  cases line with
  | nil => exact absurd rfl nonempty
  | cons c line =>
    rw [scan, h]
    rfl

/-- What a match has consumed is passed over. -/
theorem scan_over {front : List Char} (previous : Option Char) (rest : List Char) :
    scan previous front.length (front ++ rest) = scan (front.getLast?.or previous) 0 rest := by
  induction front generalizing previous with
  | nil => rfl
  | cons c front ih =>
    rw [List.cons_append, List.length_cons, scan, ih, List.getLast?_cons]
    cases front.getLast? <;> rfl

/-- After a match of a text that ends in a quote the pass stands behind that quote. -/
theorem scan_match_quote {previous : Option Char} {front rest replacement : List Char}
    (h : matchAt previous (front ++ '"' :: rest) = some (front.length + 1, replacement)) :
    scan previous 0 (front ++ '"' :: rest) = replacement ++ scan (some '"') 0 rest := by
  rw [scan_match (by simp) h]
  cases front with
  | nil => rfl
  | cons c front =>
    have beyond := @scan_over (front ++ ['"']) (some c) rest
    rw [List.getLast?_append, List.length_append, List.append_assoc] at beyond
    exact congrArg (replacement ++ ·) beyond

theorem stripJsonName_quoted {field after : List Char} (c : Char)
    (visible : isWhitespace c = false) :
    stripJsonName ('"' :: field ++ '"' :: ':' :: c :: after) field = some (c :: after) := by
  have opened : stripPrefix ['"'] ('"' :: field ++ '"' :: ':' :: c :: after) =
      some (field ++ '"' :: ':' :: c :: after) := stripPrefix_eq_some.2 rfl
  have named : stripPrefix field (field ++ '"' :: ':' :: c :: after) = some ('"' :: ':' :: c :: after) :=
    stripPrefix_eq_some.2 rfl
  have closed : stripPrefix ['"'] ('"' :: ':' :: c :: after) = some (':' :: c :: after) :=
    stripPrefix_eq_some.2 rfl
  have colon : stripPrefix [':'] ((':' :: c :: after).dropWhile isWhitespace) = some (c :: after) :=
    stripPrefix_eq_some.2 rfl
  rw [stripJsonName, opened, Option.bind_some, named, Option.bind_some, closed, Option.bind_some, colon,
    Option.map_some, List.dropWhile_cons_of_neg (by simp [visible])]

/-- The text that stands for a secret field. -/
def hidden (field value : List Char) : List Char := Line.opening field ++ marker (escapedLen value) ++ ['"']

/-- A pass that stands at a secret field replaces its value and goes on behind it. -/
theorem scan_secret {previous : Option Char} {field : List Char} (mem : field ∈ secretFields)
    (value rest : List Char) :
    scan previous 0 (Line.opening field ++ escape value ++ '"' :: rest) =
      hidden field value ++ scan (some '"') 0 rest := by
  refine scan_match_quote ?_
  have line : Line.opening field ++ escape value ++ '"' :: rest =
      '"' :: field ++ '"' :: ':' :: '"' :: (escape value ++ '"' :: rest) := by
    simp [Line.opening]
  rw [line]
  refine matchAt_field (by decide) ((matchField_quoted mem).trans ?_)
  have string := jsonStringValue_quoted (escape value ++ '"' :: rest)
  rw [closingQuote_escaped, Option.map_some, List.take_append_of_le_length (Nat.le_refl _),
    List.take_length] at string
  have head : ('"' :: field ++ '"' :: ':' :: '"' :: (escape value ++ '"' :: rest)).length -
      ('"' :: (escape value ++ '"' :: rest)).length = ('"' :: field ++ ['"', ':']).length := by
    simp only [List.length_append, List.length_cons, List.length_nil]
    omega
  have front : '"' :: field ++ '"' :: ':' :: '"' :: (escape value ++ '"' :: rest) =
      ('"' :: field ++ ['"', ':']) ++ '"' :: (escape value ++ '"' :: rest) := by simp
  rw [matchJsonField, stripJsonName_quoted '"' (by decide), Option.bind_some, string, Option.map_some]
  dsimp only
  rw [head, front, List.take_left]
  refine congrArg some (Prod.ext ?_ ?_)
  · simp only [Line.opening, List.length_append, List.length_cons, List.length_nil]
    omega
  · simp [hidden, Line.opening, escapedLen]

/-- Every match that the pass begins in the text ends in it. -/
def Settled : Option Char → Nat → List Char → Prop
  | _, _, [] => True
  | _, consumed + 1, c :: text => Settled (some c) consumed text
  | previous, 0, c :: text =>
    ¬ Unfinished previous (c :: text) ∧
      Settled (some c) (((matchAt previous (c :: text)).map Prod.fst).getD 1 - 1) text

/-- What the pass still has to leave out lies in the text. -/
def Within (consumed : Nat) (text : List Char) : Prop :=
  text = [] ∧ consumed = 0 ∨ Delimited text ∧ consumed ≤ text.length

theorem Within.tail {consumed : Nat} {c : Char} {text : List Char} (h : Within (consumed + 1) (c :: text)) :
    Within consumed text := by
  rcases h with ⟨-, zero⟩ | ⟨delimited, bound⟩
  · omega
  · simp only [List.length_cons] at bound
    rcases delimited.tail with rfl | delimited
    · exact Or.inl ⟨rfl, by simpa using bound⟩
    · exact Or.inr ⟨delimited, by omega⟩

theorem Within.tail_zero {c : Char} {text : List Char} (h : Within 0 (c :: text)) : Within 0 text := by
  rcases h with ⟨empty, -⟩ | ⟨delimited, -⟩
  · cases empty
  · exact delimited.tail.imp (fun h => ⟨h, rfl⟩) fun h => ⟨h, Nat.zero_le _⟩

theorem Within.delimited {consumed : Nat} {c : Char} {text : List Char}
    (h : Within consumed (c :: text)) : Delimited (c :: text) := by
  rcases h with ⟨empty, -⟩ | ⟨delimited, -⟩
  · cases empty
  · exact delimited

theorem Within.matched {previous : Option Char} {c : Char} {text replacement : List Char} {n : Nat}
    (h : Within 0 (c :: text)) (found : matchAt previous (c :: text) = some (n, replacement)) :
    Within (n - 1) text := by
  obtain ⟨pos, bound⟩ := matchAt_bounds found (by simp)
  exact Within.tail (c := c) (Or.inr ⟨h.delimited, by omega⟩)

/-- The pass over a text whose matches end in it, and then over what follows. -/
theorem scan_append {previous : Option Char} {consumed : Nat} {text : List Char}
    (settled : Settled previous consumed text) (within : Within consumed text) :
    ∃ last, ∀ more,
      scan previous consumed (text ++ more) = scan previous consumed text ++ scan last 0 more := by
  induction text generalizing previous consumed with
  | nil =>
    obtain ⟨-, rfl⟩ := within.resolve_right fun h => h.1.ne_nil rfl
    exact ⟨previous, fun more => rfl⟩
  | cons c text ih =>
    cases consumed with
    | succ consumed => exact ih settled within.tail
    | zero =>
      have same (more : List Char) : matchAt previous (c :: (text ++ more)) = matchAt previous (c :: text) :=
        matchAt_append within.delimited settled.1 more
      cases found : matchAt previous (c :: text) with
      | none =>
        have rest := settled.2
        rw [found] at rest
        obtain ⟨last, eq⟩ := ih rest within.tail_zero
        refine ⟨last, fun more => ?_⟩
        have whole := same more
        rw [found] at whole
        rw [List.cons_append, scan, scan, whole, found]
        exact congrArg (c :: ·) (eq more)
      | some result =>
        obtain ⟨n, replacement⟩ := result
        have rest := settled.2
        rw [found] at rest
        obtain ⟨last, eq⟩ := ih rest (within.matched found)
        refine ⟨last, fun more => ?_⟩
        have whole := same more
        rw [found] at whole
        rw [List.cons_append, scan, scan, whole, found]
        have rest := eq more
        simp only [Option.map_some, Option.getD_some] at rest
        rw [List.append_assoc, ← rest]

/-- Otherwise the pass comes to a match that has no end in the text. -/
theorem scan_unsettled {previous : Option Char} {consumed : Nat} {text : List Char}
    (open_ : ¬ Settled previous consumed text) (within : Within consumed text) :
    ∃ output last rest, Delimited rest ∧ Unfinished last rest ∧
      ∀ more, scan previous consumed (text ++ more) = output ++ scan last 0 (rest ++ more) := by
  induction text generalizing previous consumed with
  | nil => exact absurd trivial open_
  | cons c text ih =>
    cases consumed with
    | succ consumed => exact ih open_ within.tail
    | zero =>
      by_cases unfinished : Unfinished previous (c :: text)
      · exact ⟨[], previous, c :: text, within.delimited, unfinished, fun more => rfl⟩
      · have same (more : List Char) :
            matchAt previous (c :: (text ++ more)) = matchAt previous (c :: text) :=
          matchAt_append within.delimited unfinished more
        have rest := fun settled => open_ ⟨unfinished, settled⟩
        cases found : matchAt previous (c :: text) with
        | none =>
          rw [found] at rest
          obtain ⟨output, last, left, delimited, begins, eq⟩ := ih rest within.tail_zero
          refine ⟨c :: output, last, left, delimited, begins, fun more => ?_⟩
          have whole := same more
          rw [found] at whole
          rw [List.cons_append, scan, whole]
          exact congrArg (c :: ·) (eq more)
        | some result =>
          obtain ⟨n, replacement⟩ := result
          rw [found] at rest
          obtain ⟨output, last, left, delimited, begins, eq⟩ := ih rest (within.matched found)
          refine ⟨replacement ++ output, last, left, delimited, begins, fun more => ?_⟩
          have whole := same more
          rw [found] at whole
          rw [List.cons_append, scan, whole, List.append_assoc, ← eq more]
          rfl

/-- An open JSON string takes the next quote for its end. -/
theorem matchAt_json {previous : Option Char} {text field body : List Char} (delimited : Delimited text)
    (mem : field ∈ secretFields) (name : stripJsonName text field = some ('"' :: body))
    (open_ : closingQuote body = none) :
    ∃ replacement, ∀ rest, matchAt previous (text ++ '"' :: rest) = some (text.length + 1, replacement) := by
  refine ⟨text.take (text.length - (body.length + 1)) ++ ['"'] ++ marker (utf8Len body) ++ ['"'],
    fun rest => ?_⟩
  have after := stripJsonName_delimited delimited mem name
  have close := closingQuote_open open_ after.tail rest
  have string := jsonStringValue_quoted (body ++ '"' :: rest)
  rw [close, Option.map_some, List.take_left] at string
  have shorter := (stripJsonName_suffix name).length_le
  simp only [List.length_cons] at shorter
  have whole := stripJsonName_append delimited mem ('"' :: rest)
  rw [name, Option.map_some, List.cons_append] at whole
  obtain ⟨afterClose, afterColon, rfl, -, -⟩ := stripJsonName_eq_some name
  have eq : '"' :: field ++ '"' :: afterClose ++ '"' :: rest =
      '"' :: field ++ '"' :: (afterClose ++ '"' :: rest) := by simp
  rw [eq]
  refine matchAt_field (by decide) ((matchField_quoted mem).trans ?_)
  rw [← eq, matchJsonField, whole, Option.bind_some, string, Option.map_some]
  have start : ('"' :: field ++ '"' :: afterClose ++ '"' :: rest).length -
      ('"' :: (body ++ '"' :: rest)).length = ('"' :: field ++ '"' :: afterClose).length - (body.length + 1) := by
    simp only [List.length_append, List.length_cons]
    omega
  dsimp only
  rw [start, List.take_append_of_le_length (by omega)]
  refine congrArg some (Prod.ext ?_ rfl)
  dsimp only
  omega

/-- So does an open quoted value. -/
theorem matchAt_quoted {previous : Option Char} {field body : List Char}
    (delimited : Delimited (field ++ '=' :: '"' :: body)) (mem : field ∈ secretFields)
    (boundary : isBoundary previous = true) (open_ : closingQuote body = none) :
    ∃ replacement, ∀ rest, matchAt previous (field ++ '=' :: '"' :: body ++ '"' :: rest) =
      some ((field ++ '=' :: '"' :: body).length + 1, replacement) := by
  refine ⟨field ++ ['='] ++ marker (utf8Len ('"' :: body ++ ['"'])), fun rest => ?_⟩
  have after := ((delimited.of_append (free_field mem)).of_cons (by decide)).of_cons (by decide)
  have string := jsonStringValue_quoted (body ++ '"' :: rest)
  rw [closingQuote_open open_ (Or.inr after) rest, Option.map_some] at string
  have length : compactValueLen ('"' :: (body ++ '"' :: rest)) = body.length + 2 := by
    rw [compactValueLen, if_pos (isPrefixOf_quote.2 ⟨_, rfl⟩), string]
    rfl
  have eq : field ++ '=' :: '"' :: body ++ '"' :: rest = field ++ '=' :: '"' :: (body ++ '"' :: rest) := by
    simp
  have consumed : ('"' :: (body ++ '"' :: rest)).take (body.length + 2) = '"' :: body ++ ['"'] := by
    have front : '"' :: (body ++ '"' :: rest) = ('"' :: body ++ ['"']) ++ rest := by simp
    rw [front, List.take_left' (by simp)]
  have matched : matchField previous (field ++ '=' :: '"' :: (body ++ '"' :: rest)) =
      some ((field ++ '=' :: '"' :: body).length + 1,
        field ++ ['='] ++ marker (utf8Len ('"' :: body ++ ['"']))) := by
    have named : stripPrefix field (field ++ '=' :: '"' :: (body ++ '"' :: rest)) =
        some ('=' :: '"' :: (body ++ '"' :: rest)) := stripPrefix_eq_some.2 rfl
    have equals : stripPrefix ['='] ('=' :: '"' :: (body ++ '"' :: rest)) =
        some ('"' :: (body ++ '"' :: rest)) := stripPrefix_eq_some.2 rfl
    rw [matchField_bare mem, matchCompactField, named, Option.bind_some, equals, Option.bind_some, length,
      boundary, consumed, if_pos (by simp)]
    refine congrArg some (Prod.ext ?_ rfl)
    simp only [List.length_append, List.length_cons]
    omega
  rw [eq]
  obtain ⟨c, more, rfl, -, dash⟩ := field_nonempty mem
  exact matchAt_field dash matched

/-- Behind its opening quote a secret field is copied. -/
theorem scan_inside {field : List Char} (mem : field ∈ secretFields) {c : Char} (letter : c ∈ ['a', 'b'])
    (rest : List Char) :
    scan (some '"') 0 (field ++ '"' :: ':' :: '"' :: c :: '"' :: rest) =
      field ++ '"' :: ':' :: '"' :: c :: scan (some c) 0 ('"' :: rest) := by
  simp only [List.mem_cons, List.not_mem_nil, or_false] at letter
  simp only [secretFields, List.mem_cons, List.not_mem_nil, or_false] at mem
  rcases letter with rfl | rfl <;>
    rcases mem with rfl | rfl | rfl | rfl | rfl | rfl | rfl | rfl | rfl | rfl | rfl | rfl | rfl <;> rfl

/-- There are two secrets that the pass tells apart when it comes to them through this text. -/
def Shows (previous : Option Char) (text : List Char) : Prop :=
  ∃ x y, escapedLen x = escapedLen y ∧ ∀ field ∈ secretFields, ∀ s t,
    scan previous 0 (text ++ (Line.opening field ++ escape x ++ '"' :: s)) ≠
      scan previous 0 (text ++ (Line.opening field ++ escape y ++ '"' :: t))

theorem shows_of_swallowed {previous : Option Char} {text replacement : List Char}
    (h : ∀ rest, matchAt previous (text ++ '"' :: rest) = some (text.length + 1, replacement)) :
    Shows previous text := by
  refine ⟨['a'], ['b'], by decide, fun field mem s t same => ?_⟩
  have copied (c : Char) (letter : c ∈ ['a', 'b']) (rest : List Char) :
      scan previous 0 (text ++ (Line.opening field ++ escape [c] ++ '"' :: rest)) =
        replacement ++ (field ++ '"' :: ':' :: '"' :: c :: scan (some c) 0 ('"' :: rest)) := by
    have plain : escape [c] = [c] := (by decide : ∀ c ∈ ['a', 'b'], escape [c] = [c]) c letter
    have line : text ++ (Line.opening field ++ escape [c] ++ '"' :: rest) =
        text ++ '"' :: (field ++ '"' :: ':' :: '"' :: c :: '"' :: rest) := by
      simp [Line.opening, plain]
    rw [line, scan_match_quote (h _), scan_inside mem letter]
  rw [copied 'a' (by decide), copied 'b' (by decide)] at same
  simp at same

theorem marker_inj {m n : Nat} {s t : List Char} (h : marker m ++ s = marker n ++ t) : m = n := by
  unfold marker at h
  simp only [List.append_assoc] at h
  exact toDigits_append_inj (c := '>') (by decide) (List.append_cancel_left h)

theorem utf8Len_append (s t : List Char) : utf8Len (s ++ t) = utf8Len s + utf8Len t := by
  simp [utf8Len]

theorem utf8Len_nil : utf8Len [] = 0 := rfl

theorem utf8Len_cons (c : Char) (s : List Char) : utf8Len (c :: s) = c.utf8Size + utf8Len s := by
  simp [utf8Len]

theorem utf8Len_cons_pos (c : Char) (s : List Char) : 0 < utf8Len (c :: s) := by
  have := c.utf8Size_pos
  rw [utf8Len_cons]
  omega

theorem whitespace_opening {field : List Char} (mem : field ∈ secretFields) :
    ∀ c ∈ Line.opening field, isAsciiWhitespace c = false :=
  (by decide : ∀ field ∈ secretFields, ∀ c ∈ Line.opening field, isAsciiWhitespace c = false) field mem

/-- The compact rule takes a bare value up to the first white space. -/
theorem scan_bare {previous : Option Char} {name : List Char} (mem : name ∈ secretFields)
    (boundary : isBoundary previous = true) {v : Char} (unquoted : v ≠ '"')
    (visible : isAsciiWhitespace v = false) (value : List Char) :
    ∃ left, scan previous 0 (name ++ '=' :: v :: value) =
      name ++ ['='] ++ marker (utf8Len ((v :: value).takeWhile fun c => !isAsciiWhitespace c)) ++ left := by
  have named : stripPrefix name (name ++ '=' :: v :: value) = some ('=' :: v :: value) :=
    stripPrefix_eq_some.2 rfl
  have equals : stripPrefix ['='] ('=' :: v :: value) = some (v :: value) := stripPrefix_eq_some.2 rfl
  have bare : ['"'].isPrefixOf (v :: value) = false := by simp [List.isPrefixOf, Ne.symm unquoted]
  have length : compactValueLen (v :: value) =
      ((v :: value).takeWhile fun c => !isAsciiWhitespace c).length := by
    rw [compactValueLen, bare, if_neg (by decide)]
  have positive : 0 < compactValueLen (v :: value) := by
    rw [length, List.takeWhile_cons_of_pos (by simp [visible])]
    exact Nat.succ_pos _
  have consumed := (List.prefix_iff_eq_take.1
    (List.takeWhile_prefix (l := v :: value) fun c => !isAsciiWhitespace c)).symm
  have matched := @matchField_bare previous name (v :: value) mem
  rw [matchCompactField, named, Option.bind_some, equals, Option.bind_some, boundary,
    if_pos (by simpa using positive), length, consumed] at matched
  obtain ⟨c, rest, rfl, -, dash⟩ := field_nonempty mem
  exact ⟨_, scan_match (by simp) (matchAt_field dash matched)⟩

/-- A bare value that has not come to white space ends at the first space in the secret. -/
theorem shows_of_bare {previous : Option Char} {name value : List Char}
    (delimited : Delimited (name ++ '=' :: value)) (mem : name ∈ secretFields)
    (boundary : isBoundary previous = true) (unquoted : value.head? ≠ some '"')
    (runs : ∀ c ∈ value, isAsciiWhitespace c = false) : Shows previous (name ++ '=' :: value) := by
  have delimited := (delimited.of_append (free_field mem)).of_cons (by decide)
  obtain ⟨v, value, rfl⟩ := List.exists_cons_of_ne_nil delimited.ne_nil
  refine ⟨[' '], ['a'], by decide, fun field mem' s t same => ?_⟩
  have unbroken : ∀ c ∈ v :: value ++ Line.opening field, (!isAsciiWhitespace c) = true := by
    intro c inside
    rcases List.mem_append.1 inside with inside | inside
    · simp [runs c inside]
    · simp [whitespace_opening mem' c inside]
  have run (rest : List Char) :
      (v :: (value ++ Line.opening field ++ rest)).takeWhile (fun c => !isAsciiWhitespace c) =
        v :: value ++ Line.opening field ++ rest.takeWhile fun c => !isAsciiWhitespace c := by
    rw [← List.takeWhile_append_of_pos unbroken]
    rfl
  have line (c : Char) (rest : List Char) (plain : escape [c] = [c]) :
      name ++ '=' :: v :: value ++ (Line.opening field ++ escape [c] ++ '"' :: rest) =
        name ++ '=' :: v :: (value ++ Line.opening field ++ c :: '"' :: rest) := by
    simp [plain]
  rw [line ' ' s (by decide), line 'a' t (by decide)] at same
  have visible := runs v List.mem_cons_self
  obtain ⟨left, eq⟩ := scan_bare mem boundary (by simpa using unquoted) visible
    (value ++ Line.opening field ++ ' ' :: '"' :: s)
  obtain ⟨left', eq'⟩ := scan_bare mem boundary (by simpa using unquoted) visible
    (value ++ Line.opening field ++ 'a' :: '"' :: t)
  rw [run] at eq eq'
  rw [eq, eq'] at same
  simp only [List.append_assoc, List.append_cancel_left_eq] at same
  have lengths := marker_inj same
  rw [List.takeWhile_cons_of_neg (by decide), List.takeWhile_cons_of_pos (by decide)] at lengths
  have longer := utf8Len_cons_pos 'a' (('"' :: t).takeWhile fun c => !isAsciiWhitespace c)
  simp only [List.cons_append, utf8Len_cons, utf8Len_append, utf8Len_nil] at lengths longer
  omega

theorem utf8Len_take_lt {text : List Char} {m n : Nat} (lt : m < n) (bound : n ≤ text.length) :
    utf8Len (text.take m) < utf8Len (text.take n) := by
  have split : text.take n = text.take m ++ (text.drop m).take (n - m) := by
    rw [← List.take_add, Nat.add_sub_cancel' lt.le]
  have more : (text.drop m).take (n - m) ≠ [] := by
    rw [← List.length_pos_iff, List.length_take, List.length_drop]
    omega
  obtain ⟨c, rest, eq⟩ := List.exists_cons_of_ne_nil more
  have := utf8Len_cons_pos c rest
  rw [split, utf8Len_append, eq]
  omega

theorem utf8Len_take_inj {text : List Char} {m n : Nat} (hm : m ≤ text.length) (hn : n ≤ text.length)
    (h : utf8Len (text.take m) = utf8Len (text.take n)) : m = n := by
  rcases Nat.lt_trichotomy m n with lt | eq | lt
  · have := utf8Len_take_lt lt hn
    omega
  · exact eq
  · have := utf8Len_take_lt lt hm
    omega

theorem take_found {pattern text : List Char} {start found : Nat}
    (h : find pattern (text.drop start) = some found) :
    text.take (start + found + pattern.length) = text.take (start + found) ++ pattern := by
  have stands := find_starts h
  rw [List.drop_drop, List.prefix_iff_eq_take] at stands
  rw [List.take_add, ← stands]

/-- A block reaches to the end of the line or to the end of a closing marker. -/
theorem pemLength_end (line : List Char) :
    pemLength line = line.length ∨
      ∃ front, line.take (pemLength line) = front ++ pemLineEnd ∨
        line.take (pemLength line) = front ++ "-----".toList := by
  unfold pemLength
  cases close : pemClose line with
  | some n =>
    obtain ⟨mark, -, h⟩ := Option.bind_eq_some_iff.1 close
    obtain ⟨at_, found, rfl⟩ := Option.map_eq_some_iff.1 h
    exact Or.inr ⟨_, Or.inl (take_found found)⟩
  | none =>
    cases dashes : pemDashes line with
    | some n =>
      obtain ⟨mark, -, h⟩ := Option.bind_eq_some_iff.1 dashes
      obtain ⟨at_, found, rfl⟩ := Option.map_eq_some_iff.1 h
      exact Or.inr ⟨_, Or.inr (take_found found)⟩
    | none => exact Or.inl rfl

theorem find_opening {pattern field : List Char} (mem : field ∈ secretFields)
    (mark : pattern ∈ [pemEndMark, pemLineEnd]) (rest : List Char) :
    find pattern (Line.opening field ++ rest) = (find pattern rest).map (· + (Line.opening field).length) := by
  have absent : ∀ field ∈ secretFields, ∀ pattern ∈ [pemEndMark, pemLineEnd],
      find pattern (Line.opening field) = none ∧ '"' ∉ pattern := by decide
  obtain ⟨none, quote⟩ := absent field mem pattern mark
  exact find_append_none none ⟨'"' :: field ++ ['"', ':'], '"', by simp [Line.opening], quote⟩ rest

/-- A secret that closes a PEM block. -/
def closingSecret : List Char := "-----END -----\n".toList

theorem find_closingSecret (rest : List Char) :
    find pemEndMark (escape closingSecret ++ rest) = some 0 ∧
      find pemLineEnd (escape closingSecret ++ rest) = some 9 := ⟨rfl, rfl⟩

/-- A block that is open in the text before a secret is closed by that secret. -/
theorem pemClose_closingSecret {text field : List Char} (delimited : Delimited text)
    (mem : field ∈ secretFields) (open_ : pemClose text = none) (rest : List Char) :
    pemClose (text ++ (Line.opening field ++ (escape closingSecret ++ rest))) =
      some (text.length + (Line.opening field).length + 16) := by
  have length : pemLineEnd.length = 7 := rfl
  cases mark : find pemEndMark text with
  | some n =>
    have bound := find_bound mark
    have nine : pemEndMark.length = 9 := rfl
    have unended : find pemLineEnd (text.drop n) = none := by
      rw [pemClose, mark, Option.bind_some, Option.map_eq_none_iff] at open_
      exact open_
    have left : Delimited (text.drop n) := by
      refine delimited.of_suffix (List.drop_suffix _ _) ?_
      rw [← List.length_pos_iff, List.length_drop]
      omega
    rw [pemClose, find_append mark, Option.bind_some, List.drop_append_of_le_length (by omega),
      find_append_none unended (left.seals (by decide)), find_opening mem (by simp),
      (find_closingSecret rest).2]
    simp only [Option.map_some, List.length_drop, length, Option.some.injEq]
    omega
  | none =>
    rw [pemClose, find_append_none mark (delimited.seals (by decide)), find_opening mem (by simp),
      (find_closingSecret rest).1]
    simp only [Option.map_some, Option.bind_some]
    rw [← List.append_assoc, List.drop_left' (by rw [List.length_append]; omega), (find_closingSecret rest).2]
    simp only [Option.map_some, length, Option.some.injEq]
    omega

theorem scan_pem {previous : Option Char} {line : List Char} (begins : pemBegin <+: line) :
    ∃ left, scan previous 0 line = marker (utf8Len (line.take (pemLength line))) ++ left := by
  have nonempty : line ≠ [] := by
    rintro rfl
    have := begins.length_le
    exact absurd this (by decide)
  have matched : matchAt previous line =
      some (pemLength line, marker (utf8Len (line.take (pemLength line)))) := by
    rw [matchAt, matchPem, if_pos (List.isPrefixOf_iff_prefix.2 begins)]
    rfl
  exact ⟨_, scan_match nonempty matched⟩

theorem shows_of_pem {previous : Option Char} {text : List Char} (delimited : Delimited text)
    (begins : pemBegin <+: text) (open_ : pemClose text = none) : Shows previous text := by
  refine ⟨closingSecret, List.replicate 16 'a', by decide, fun field mem s t same => ?_⟩
  have harmless : escape (List.replicate 16 'a') = List.replicate 16 'a' := by decide
  rw [harmless, List.append_assoc, List.append_assoc] at same
  obtain ⟨left, eq⟩ := @scan_pem previous _
    (begins.trans (List.prefix_append _ (Line.opening field ++ (escape closingSecret ++ '"' :: s))))
  obtain ⟨left', eq'⟩ := @scan_pem previous _
    (begins.trans (List.prefix_append _ (Line.opening field ++ (List.replicate 16 'a' ++ '"' :: t))))
  rw [eq, eq'] at same
  have lengths := marker_inj same
  rw [pemLength_of_close (pemClose_closingSecret delimited mem open_ _)] at lengths
  -- both lines up to where the secret ends
  have upTo (secret rest : List Char) (sixteen : secret.length = 16) :
      (text ++ (Line.opening field ++ (secret ++ rest))).take (text.length + (Line.opening field).length + 16) =
        text ++ (Line.opening field ++ secret) := by
    rw [← List.append_assoc (Line.opening field), ← List.append_assoc text, List.take_left']
    simp only [List.length_append, sixteen]
    omega
  have ends := upTo (List.replicate 16 'a') ('"' :: t) rfl
  have equal : utf8Len (escape closingSecret) = utf8Len (List.replicate 16 'a') := by decide
  rw [upTo _ _ (by decide), utf8Len_append, utf8Len_append, equal, ← utf8Len_append, ← utf8Len_append,
    ← ends] at lengths
  have shorter : text.length + (Line.opening field).length + 16 <
      (text ++ (Line.opening field ++ (List.replicate 16 'a' ++ '"' :: t))).length := by
    simp only [List.length_append, List.length_cons, List.length_replicate]
    omega
  have place := utf8Len_take_inj shorter.le (pemLength_le _) lengths
  rcases pemLength_end (text ++ (Line.opening field ++ (List.replicate 16 'a' ++ '"' :: t))) with whole | found
  · omega
  · rw [← place, ends] at found
    have last : (text ++ (Line.opening field ++ List.replicate 16 'a')).getLast? = some 'a' := by
      rw [List.getLast?_append, List.getLast?_append]
      rfl
    obtain ⟨front, found | found⟩ := found
    · rw [found, List.getLast?_append] at last
      have clash : some 'n' = some 'a' := last
      exact absurd clash (by decide)
    · rw [found, List.getLast?_append] at last
      have clash : some '-' = some 'a' := last
      exact absurd clash (by decide)

/-- What an unfinished match hides of the next secret depends on that secret. -/
theorem Unfinished.shows {previous : Option Char} {text : List Char} (h : Unfinished previous text)
    (delimited : Delimited text) : Shows previous text := by
  cases h with
  | pem begins open_ => exact shows_of_pem delimited begins open_
  | json field body mem name open_ =>
    obtain ⟨replacement, matched⟩ := @matchAt_json previous _ _ _ delimited mem name open_
    exact shows_of_swallowed matched
  | quoted field body mem boundary eq open_ =>
    subst eq
    obtain ⟨replacement, matched⟩ := matchAt_quoted delimited mem boundary open_
    exact shows_of_swallowed matched
  | bare field value mem boundary eq unquoted runs =>
    subst eq
    exact shows_of_bare delimited mem boundary unquoted runs

/-- No match that begins in the text before a secret is still going on where the secret begins. -/
def Hides : Option Char → Line → Prop
  | _, .plain _ => True
  | previous, .secret before _ _ after => Settled previous 0 before ∧ Hides (some '"') after

theorem within_gap {text : List Char} (h : Delimited text) : Within 0 text := Or.inr ⟨h, Nat.zero_le _⟩

theorem scan_hidden {x y : Line} {previous : Option Char} (formed : x.WellFormed)
    (hides : Hides previous x) (same : x.map pad = y.map pad) :
    scan previous 0 x.text = scan previous 0 y.text := by
  induction x generalizing y previous with
  | plain text =>
    cases y with
    | plain other =>
      rw [Line.map, Line.map, Line.plain.injEq] at same
      rw [Line.text, Line.text, same]
    | secret => cases same
  | secret before field value after ih =>
    cases y with
    | plain => cases same
    | secret before' field' value' after' =>
      simp only [Line.map, Line.secret.injEq] at same
      obtain ⟨rfl, rfl, value_eq, after_eq⟩ := same
      obtain ⟨last, beyond⟩ := scan_append hides.1 (within_gap formed.1)
      have length : escapedLen value = escapedLen value' := by
        simpa [pad] using congrArg List.length value_eq
      rw [Line.text, Line.text, List.append_assoc, List.append_assoc, List.append_assoc, List.append_assoc,
        beyond, beyond, ← List.append_assoc (Line.opening field), ← List.append_assoc (Line.opening field),
        scan_secret formed.2.1, scan_secret formed.2.1, ih formed.2.2 hides.2 after_eq, hidden, hidden, length]

theorem scan_shown {x : Line} {previous : Option Char} (formed : x.WellFormed) (open_ : ¬ Hides previous x) :
    ∃ v w, escapedLen v = escapedLen w ∧
      scan previous 0 (x.map fun _ => v).text ≠ scan previous 0 (x.map fun _ => w).text := by
  induction x generalizing previous with
  | plain text => exact absurd trivial open_
  | secret before field value after ih =>
    by_cases settled : Settled previous 0 before
    · obtain ⟨v, w, lengths, differ⟩ := ih formed.2.2 fun hides => open_ ⟨settled, hides⟩
      obtain ⟨last, beyond⟩ := scan_append settled (within_gap formed.1)
      refine ⟨v, w, lengths, fun same => differ ?_⟩
      have hop (u : List Char) : scan previous 0 ((Line.secret before field value after).map fun _ => u).text =
          scan previous 0 before ++
            (hidden field u ++ scan (some '"') 0 (after.map fun _ => u).text) := by
        rw [Line.map, Line.text, List.append_assoc, List.append_assoc, beyond, ← List.append_assoc (Line.opening field),
          scan_secret formed.2.1]
      rw [hop v, hop w, hidden, hidden, lengths] at same
      exact List.append_cancel_left (List.append_cancel_left same)
    · obtain ⟨output, last, rest, delimited, unfinished, reach⟩ := scan_unsettled settled (within_gap formed.1)
      obtain ⟨v, w, lengths, differ⟩ := unfinished.shows delimited
      refine ⟨v, w, lengths, fun same => ?_⟩
      rw [Line.map, Line.map, Line.text, Line.text, List.append_assoc, List.append_assoc, List.append_assoc,
        List.append_assoc, reach, reach] at same
      have same := List.append_cancel_left same
      simp only [← List.append_assoc] at same
      have differ := differ field formed.2.1 (after.map fun _ => v).text (after.map fun _ => w).text
      simp only [← List.append_assoc] at differ
      exact differ same

theorem find_infix (front pattern rest : List Char) : (find pattern (front ++ (pattern ++ rest))).isSome := by
  induction front with
  | nil => rw [List.nil_append, find_of_starts (List.prefix_append _ _)]; rfl
  | cons c front ih =>
    rw [List.cons_append, find]
    split
    · rfl
    · rw [Option.isSome_map]
      exact ih

/-- The pre-check lets every line with a secret field through. -/
theorem redact_secret {before field value : List Char} {after : Line} (mem : field ∈ secretFields) :
    redact (Line.secret before field value after).text =
      scan none 0 (Line.secret before field value after).text := by
  have named : (Line.secret before field value after).text =
      (before ++ ['"']) ++ (field ++ (['"', ':', '"'] ++ escape value ++ '"' :: after.text)) := by
    simp [Line.text, Line.opening]
  have found : secretFields.any (fun name =>
      (find name (Line.secret before field value after).text).isSome) = true :=
    List.any_eq_true.2 ⟨field, mem, by rw [named]; exact find_infix _ _ _⟩
  rw [redact, if_pos]
  rw [mightContainSecret, found]
  simp

theorem hides_map (f : List Char → List Char) (previous : Option Char) (line : Line) :
    Hides previous (line.map f) ↔ Hides previous line := by
  induction line generalizing previous with
  | plain text => exact Iff.rfl
  | secret before field value after ih => exact and_congr_right fun _ => ih _

theorem redact_hidden {x y : Line} (formed : x.WellFormed) (hides : Hides none x)
    (same : x.map pad = y.map pad) : redact x.text = redact y.text := by
  have equal := scan_hidden formed hides same
  cases x with
  | plain text =>
    cases y with
    | plain other =>
      rw [Line.map, Line.map, Line.plain.injEq] at same
      rw [same]
    | secret => cases same
  | secret before field value after =>
    cases y with
    | plain => cases same
    | secret before' field' value' after' =>
      simp only [Line.map, Line.secret.injEq] at same
      obtain ⟨rfl, rfl, -, -⟩ := same
      rw [redact_secret formed.2.1, redact_secret formed.2.1, equal]

theorem redact_shown {x : Line} (formed : x.WellFormed) (open_ : ¬ Hides none x) :
    ∃ v w, escapedLen v = escapedLen w ∧
      redact (x.map fun _ => v).text ≠ redact (x.map fun _ => w).text := by
  obtain ⟨v, w, lengths, differ⟩ := scan_shown formed open_
  refine ⟨v, w, lengths, ?_⟩
  cases x with
  | plain text => exact absurd trivial open_
  | secret before field value after =>
    rw [Line.map, Line.map, redact_secret formed.2.1, redact_secret formed.2.1]
    exact differ

namespace Json

/-- The line cut at its secrets. -/
def line (value : Json) : Line := value.cut (.plain [])

theorem line_text (value : Json) : value.line.text = value.render := by
  rw [line, cut_text, Line.text, List.append_nil]

theorem line_map (f : List Char → List Char) (value : Json) :
    (value.mapSecrets f).line = value.line.map f := cut_map f value (.plain [])

theorem line_wellFormed (value : Json) : value.line.WellFormed := cut_wellFormed value _ trivial

/-- The redactions of all lines that have the shape of this one do not depend on the secrets, if and
only if every match the pass begins in the text before a secret field ends in that text. -/
theorem redact_independent_iff (value : Json) :
    (∀ x y : Json, value.SameShape x → value.SameShape y → x.SameButSecrets y →
      redact x.render = redact y.render) ↔ Hides none value.line := by
  constructor
  · intro independent
    by_contra open_
    obtain ⟨v, w, lengths, differ⟩ := redact_shown value.line_wellFormed open_
    refine differ ?_
    rw [← line_map, ← line_map, line_text, line_text]
    have shape (u : List Char) : value.SameShape (value.mapSecrets fun _ => u) :=
      (mapSecrets_mapSecrets (fun _ => []) (fun _ => u) value).symm
    refine independent _ _ (shape v) (shape w) ?_
    rw [SameButSecrets, mapSecrets_mapSecrets, mapSecrets_mapSecrets]
    simp only [pad, lengths]
  · intro hides x y shape _ same
    have gaps : x.line.map (fun _ => []) = value.line.map fun _ => [] := by
      rw [← line_map, ← line_map, shape]
    have hides : Hides none x.line := by
      rw [← hides_map fun _ => [], gaps, hides_map]
      exact hides
    rw [← line_text, ← line_text]
    refine redact_hidden x.line_wellFormed hides ?_
    rw [← line_map, ← line_map, same]

end Json

/-- `{"message":"password=","token":…}`: the quotes around the comma are taken for a value. -/
def leaking (token : String) : Json :=
  .object [("message".toList, .string "password=".toList), ("token".toList, .string token.toList)]

theorem redact_leaks :
    (leaking "hunter2").SameButSecrets (leaking "dolphin") ∧
      redact (leaking "hunter2").render ≠ redact (leaking "dolphin").render := by
  have lengths : pad "hunter2".toList = pad "dolphin".toList := by decide
  have message (text : List Char) : secretOf "message".toList (.string text) = none := by rfl
  have token (text : List Char) : secretOf "token".toList (.string text) = some text := by rfl
  constructor
  · simp only [leaking, Json.SameButSecrets, Json.mapSecrets, mapFields, message, token, lengths]
  · decide

end SupraHarness.Redact
