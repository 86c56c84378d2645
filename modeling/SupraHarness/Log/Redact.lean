import SupraHarness.Lib.Scan

/-!
# Redaction at the sink

One pass over a formatted line. At every position the rules are tried in turn: a PEM block, a named
field in either rendering, and a token with a distinctive prefix. A match is replaced by a marker with
the number of bytes it hides, and the pass goes on after it.

A line is its characters. Every pattern is ASCII, so a count of characters is turned into bytes only
where the code reports a length.
-/
namespace SupraHarness.Redact

open Str Scan

def utf8Len (text : List Char) : Nat := (text.map Char.utf8Size).sum

/-- What replaces a redacted value: the marker plus the length that was removed. -/
def marker (len : Nat) : List Char := "<redacted:".toList ++ Nat.toDigits 10 len ++ ['>']

/-- Characters a credential-like token is made of. -/
inductive Charset where
  | token
  | upper
  deriving DecidableEq, Repr

def Charset.contains : Charset → Char → Bool
  | token, c => c.isAlphanum || c ∈ ['-', '_', '.', '+', '/']
  | upper, c => c.isUpper || c.isDigit

/-- A credential recognisable from a distinctive prefix. -/
structure Shape where
  /-- The literal that introduces it. -/
  literal : List Char
  minPayload : Nat
  charset : Charset
  deriving DecidableEq, Repr

def shapes : List Shape := [
  ⟨"sk-".toList, 16, .token⟩,
  ⟨"ghp_".toList, 16, .token⟩,
  ⟨"gho_".toList, 16, .token⟩,
  ⟨"ghu_".toList, 16, .token⟩,
  ⟨"ghs_".toList, 16, .token⟩,
  ⟨"ghr_".toList, 16, .token⟩,
  ⟨"github_pat_".toList, 16, .token⟩,
  ⟨"xoxb-".toList, 16, .token⟩,
  ⟨"xoxp-".toList, 16, .token⟩,
  ⟨"xoxa-".toList, 16, .token⟩,
  ⟨"xoxs-".toList, 16, .token⟩,
  ⟨"AIza".toList, 30, .token⟩,
  ⟨"AKIA".toList, 16, .upper⟩,
  ⟨"ASIA".toList, 16, .upper⟩,
  ⟨"Bearer ".toList, 16, .token⟩]

/-- Field names whose value is a secret regardless of its shape. -/
def secretFields : List (List Char) := [
  "api_key".toList,
  "apikey".toList,
  "auth_token".toList,
  "authorization".toList,
  "credential".toList,
  "credentials".toList,
  "passwd".toList,
  "password".toList,
  "private_key".toList,
  "secret".toList,
  "secret_key".toList,
  "session_key".toList,
  "token".toList]

/-- Marker that opens a PEM block. -/
def pemBegin : List Char := "-----BEGIN ".toList

def pemEndMark : List Char := "-----END ".toList

/-- The dashes that close a block and an escaped line feed. -/
def pemLineEnd : List Char := "-----\\n".toList

/-- Where the block ends with an escaped line feed after the closing marker. -/
def pemClose (rest : List Char) : Option Nat :=
  (find pemEndMark rest).bind fun mark =>
    (find pemLineEnd (rest.drop mark)).map fun close => mark + close + pemLineEnd.length

/-- Where the block ends when no line feed follows. -/
def pemDashes (rest : List Char) : Option Nat :=
  (find pemEndMark rest).bind fun mark =>
    (find "-----".toList (rest.drop (mark + 9))).map fun close => mark + 9 + close + 5

def pemLength (rest : List Char) : Nat := ((pemClose rest).or (pemDashes rest)).getD rest.length

/-- A PEM block, redacted whole. The number of characters consumed, and the text to emit. -/
def matchPem (rest : List Char) : Option (Nat × List Char) :=
  if pemBegin.isPrefixOf rest then
    some (pemLength rest, marker (utf8Len (rest.take (pemLength rest))))
  else none

/-- Whether a position after this character starts a token rather than sitting inside one. -/
def isBoundary : Option Char → Bool
  | none => true
  | some previous => !(previous.isAlphanum || previous ∈ ['-', '_', '.'])

/-- The characters before the closing quote; a backslash takes the character after it along. -/
def closingQuote : List Char → Option Nat
  | [] => none
  | c :: body =>
    if c = '\\' then
      match body with
      | [] => none
      | _ :: body => (closingQuote body).map (· + 2)
    else if c = '"' then some 0
    else (closingQuote body).map (· + 1)

/-- Length of a JSON string value and the characters it occupies including its quotes. -/
def jsonStringValue (rest : List Char) : Option (Nat × Nat) :=
  (stripPrefix ['"'] rest).bind fun body =>
    (closingQuote body).map fun count => (utf8Len (body.take count), count + 2)

/-- `u8::is_ascii_whitespace`. -/
def isAsciiWhitespace (c : Char) : Bool := c ∈ [' ', '\t', '\n', '\x0C', '\r']

/-- The characters of a compact value. -/
def compactValueLen (value : List Char) : Nat :=
  if ['"'].isPrefixOf value then ((jsonStringValue value).map Prod.snd).getD value.length
  else (value.takeWhile fun c => !isAsciiWhitespace c).length

/-- Match `"<field>":` allowing the whitespace a formatter may insert. -/
def stripJsonName (rest field : List Char) : Option (List Char) :=
  (stripPrefix ['"'] rest).bind fun afterOpen =>
  (stripPrefix field afterOpen).bind fun afterName =>
  (stripPrefix ['"'] afterName).bind fun afterClose =>
  (stripPrefix [':'] (afterClose.dropWhile isWhitespace)).map fun afterColon =>
    afterColon.dropWhile isWhitespace

/-- The quoted name, a colon, then a quoted value. -/
def matchJsonField (rest field : List Char) : Option (Nat × List Char) :=
  (stripJsonName rest field).bind fun afterName =>
    (jsonStringValue afterName).map fun (valueLen, total) =>
      let head := rest.take (rest.length - afterName.length)
      (rest.length - afterName.length + total, head ++ ['"'] ++ marker valueLen ++ ['"'])

/-- The bare name, an equals sign, then a bare or quoted value. -/
def matchCompactField (previous : Option Char) (rest field : List Char) : Option (Nat × List Char) :=
  (stripPrefix field rest).bind fun after =>
  (stripPrefix ['='] after).bind fun value =>
    if isBoundary previous && 0 < compactValueLen value then
      some (field.length + 1 + compactValueLen value,
        field ++ ['='] ++ marker (utf8Len (value.take (compactValueLen value))))
    else none

/-- A named field whose value is secret whatever it looks like. -/
def matchField (previous : Option Char) (rest : List Char) : Option (Nat × List Char) :=
  secretFields.findSome? fun field =>
    (matchJsonField rest field).or (matchCompactField previous rest field)

/-- A prefixed credential shape. -/
def matchShape (previous : Option Char) (rest : List Char) : Option (Nat × List Char) :=
  if isBoundary previous then
    shapes.findSome? fun shape =>
      (stripPrefix shape.literal rest).bind fun payload =>
        let length := (payload.takeWhile shape.charset.contains).length
        if shape.minPayload ≤ length then
          some (shape.literal.length + length, shape.literal ++ marker length)
        else none
  else none

/-- Try every mechanism at one position. -/
def matchAt (previous : Option Char) (rest : List Char) : Option (Nat × List Char) :=
  ((matchPem rest).or (matchField previous rest)).or (matchShape previous rest)

/-- Whether any mechanism could possibly fire. -/
def mightContainSecret (line : List Char) : Bool :=
  shapes.any (fun shape => (find shape.literal line).isSome) ||
    secretFields.any (fun field => (find field line).isSome) ||
    (find pemBegin line).isSome

/-- The loop over the line. `consumed` counts the characters of a match that are still to be passed. -/
def scan : Option Char → Nat → List Char → List Char
  | _, _, [] => []
  | _, consumed + 1, c :: line => scan (some c) consumed line
  | previous, 0, c :: line =>
    match matchAt previous (c :: line) with
    | some (consumed, replacement) => replacement ++ scan (some c) (consumed - 1) line
    | none => c :: scan (some c) 0 line

/-- Remove anything that looks like a credential from one formatted line. -/
def redact (line : List Char) : List Char :=
  if mightContainSecret line then scan none 0 line else line

@[simp] theorem closingQuote_escape (c : Char) (body : List Char) :
    closingQuote ('\\' :: c :: body) = (closingQuote body).map (· + 2) := rfl

@[simp] theorem closingQuote_quote (body : List Char) : closingQuote ('"' :: body) = some 0 := by
  rw [closingQuote.eq_def]
  rfl

theorem closingQuote_other {c : Char} (back : c ≠ '\\') (quote : c ≠ '"') (body : List Char) :
    closingQuote (c :: body) = (closingQuote body).map (· + 1) := by
  rw [closingQuote.eq_def]
  simp only [if_neg back, if_neg quote]

theorem closingQuote_bound {body : List Char} {n : Nat} (h : closingQuote body = some n) :
    n < body.length := by
  induction body using closingQuote.induct generalizing n with
  | case1 => cases h
  | case2 => cases h
  | case3 d body ih =>
    rw [closingQuote_escape] at h
    obtain ⟨m, found, rfl⟩ := Option.map_eq_some_iff.1 h
    have := ih found
    simp only [List.length_cons]
    omega
  | case4 body _ =>
    rw [closingQuote_quote] at h
    cases h
    simp
  | case5 c body back quote ih =>
    rw [closingQuote_other back quote] at h
    obtain ⟨m, found, rfl⟩ := Option.map_eq_some_iff.1 h
    have := ih found
    simp only [List.length_cons]
    omega

theorem closingQuote_append {body : List Char} {n : Nat} (h : closingQuote body = some n)
    (more : List Char) : closingQuote (body ++ more) = some n := by
  induction body using closingQuote.induct generalizing n with
  | case1 => cases h
  | case2 => cases h
  | case3 d body ih =>
    rw [closingQuote_escape] at h
    obtain ⟨m, found, rfl⟩ := Option.map_eq_some_iff.1 h
    rw [List.cons_append, List.cons_append, closingQuote_escape, ih found]
    rfl
  | case4 body _ =>
    rw [closingQuote_quote] at h
    cases h
    exact closingQuote_quote _
  | case5 c body back quote ih =>
    rw [closingQuote_other back quote] at h
    obtain ⟨m, found, rfl⟩ := Option.map_eq_some_iff.1 h
    rw [List.cons_append, closingQuote_other back quote, ih found]
    rfl

theorem jsonStringValue_eq_some {rest : List Char} {len total : Nat}
    (h : jsonStringValue rest = some (len, total)) :
    ∃ body count, rest = '"' :: body ∧ closingQuote body = some count ∧
      len = utf8Len (body.take count) ∧ total = count + 2 := by
  obtain ⟨body, open_, h⟩ := Option.bind_eq_some_iff.1 h
  obtain ⟨count, close, eq⟩ := Option.map_eq_some_iff.1 h
  cases eq
  exact ⟨body, count, stripPrefix_eq_some.1 open_, close, rfl, rfl⟩

theorem jsonStringValue_quoted (body : List Char) :
    jsonStringValue ('"' :: body) =
      (closingQuote body).map fun count => (utf8Len (body.take count), count + 2) := by
  have opened : stripPrefix ['"'] ('"' :: body) = some body := stripPrefix_eq_some.2 rfl
  rw [jsonStringValue, opened]
  rfl

theorem jsonStringValue_bound {rest : List Char} {len total : Nat}
    (h : jsonStringValue rest = some (len, total)) : total ≤ rest.length := by
  obtain ⟨body, count, rfl, close, -, rfl⟩ := jsonStringValue_eq_some h
  have := closingQuote_bound close
  simp only [List.length_cons]
  omega

theorem jsonStringValue_append {rest : List Char} {found : Nat × Nat}
    (h : jsonStringValue rest = some found) (more : List Char) :
    jsonStringValue (rest ++ more) = some found := by
  obtain ⟨body, count, rfl, close, len, total⟩ := jsonStringValue_eq_some h
  rw [List.cons_append, jsonStringValue_quoted, closingQuote_append close, Option.map_some,
    List.take_append_of_le_length (closingQuote_bound close).le, ← len, ← total]

theorem stripJsonName_eq_some {rest field after : List Char} (h : stripJsonName rest field = some after) :
    ∃ afterClose afterColon, rest = '"' :: field ++ '"' :: afterClose ∧
      afterClose.dropWhile isWhitespace = ':' :: afterColon ∧
      after = afterColon.dropWhile isWhitespace := by
  obtain ⟨afterOpen, open_, h⟩ := Option.bind_eq_some_iff.1 h
  obtain ⟨afterName, name, h⟩ := Option.bind_eq_some_iff.1 h
  obtain ⟨afterClose, close, h⟩ := Option.bind_eq_some_iff.1 h
  obtain ⟨afterColon, colon, rfl⟩ := Option.map_eq_some_iff.1 h
  rw [stripPrefix_eq_some] at open_ name close colon
  exact ⟨afterClose, afterColon, by rw [open_, name, close]; simp, colon, rfl⟩

theorem stripJsonName_suffix {rest field after : List Char} (h : stripJsonName rest field = some after) :
    after <:+ rest := by
  obtain ⟨afterClose, afterColon, rfl, colon, rfl⟩ := stripJsonName_eq_some h
  have spaces : afterColon <:+ afterClose :=
    (List.suffix_cons _ _).trans (colon ▸ List.dropWhile_suffix _)
  exact ((List.dropWhile_suffix _).trans spaces).trans
    ((List.suffix_cons _ _).trans (List.suffix_append _ _))

theorem compactValueLen_le (value : List Char) : compactValueLen value ≤ value.length := by
  unfold compactValueLen
  split
  · cases h : jsonStringValue value with
    | none => simp
    | some found => exact @jsonStringValue_bound value found.1 found.2 h
  · exact (List.takeWhile_prefix _).length_le

theorem pemClose_bound {rest : List Char} {n : Nat} (h : pemClose rest = some n) : n ≤ rest.length := by
  obtain ⟨mark, found, h⟩ := Option.bind_eq_some_iff.1 h
  obtain ⟨close, found', rfl⟩ := Option.map_eq_some_iff.1 h
  have bound := find_bound found
  have bound' := find_bound found'
  rw [List.length_drop] at bound'
  have length : pemEndMark.length = 9 := rfl
  omega

theorem pemDashes_bound {rest : List Char} {n : Nat} (h : pemDashes rest = some n) : n ≤ rest.length := by
  obtain ⟨mark, found, h⟩ := Option.bind_eq_some_iff.1 h
  obtain ⟨close, found', rfl⟩ := Option.map_eq_some_iff.1 h
  have bound := find_bound found
  have bound' := find_bound found'
  rw [List.length_drop] at bound'
  have length : pemEndMark.length = 9 := rfl
  have length' : "-----".toList.length = 5 := rfl
  omega

theorem pemLength_pos {rest : List Char} (nonempty : rest ≠ []) : 0 < pemLength rest := by
  unfold pemLength
  cases close : pemClose rest with
  | some n =>
    obtain ⟨mark, found, h⟩ := Option.bind_eq_some_iff.1 close
    obtain ⟨close, found', rfl⟩ := Option.map_eq_some_iff.1 h
    have length : pemLineEnd.length = 7 := rfl
    simp only [Option.some_or, Option.getD_some]
    omega
  | none =>
    cases dashes : pemDashes rest with
    | some n =>
      obtain ⟨mark, found, h⟩ := Option.bind_eq_some_iff.1 dashes
      obtain ⟨close, found', rfl⟩ := Option.map_eq_some_iff.1 h
      simp only [Option.none_or, Option.getD_some]
      omega
    | none => exact List.length_pos_of_ne_nil nonempty

theorem pemLength_le (rest : List Char) : pemLength rest ≤ rest.length := by
  unfold pemLength
  cases close : pemClose rest with
  | some n => exact pemClose_bound close
  | none =>
    cases dashes : pemDashes rest with
    | some n => exact pemDashes_bound dashes
    | none => exact Nat.le_refl _

/-- A match consumes characters of the line, and at least one. -/
theorem matchAt_bounds {previous : Option Char} {rest : List Char} {n : Nat} {text : List Char}
    (h : matchAt previous rest = some (n, text)) (nonempty : rest ≠ []) : 0 < n ∧ n ≤ rest.length := by
  rw [matchAt, Option.or_eq_some_iff, Option.or_eq_some_iff] at h
  rcases h with (pem | ⟨-, field⟩) | ⟨-, shape⟩
  · unfold matchPem at pem
    split at pem
    · cases pem
      exact ⟨pemLength_pos nonempty, pemLength_le rest⟩
    · cases pem
  · obtain ⟨field, mem, found⟩ := List.exists_of_findSome?_eq_some field
    rw [Option.or_eq_some_iff] at found
    rcases found with json | ⟨-, compact⟩
    · obtain ⟨after, name, json⟩ := Option.bind_eq_some_iff.1 json
      obtain ⟨⟨len, total⟩, value, eq⟩ := Option.map_eq_some_iff.1 json
      cases eq
      have suffix := (stripJsonName_suffix name).length_le
      have bound := jsonStringValue_bound value
      obtain ⟨body, count, -, -, -, rfl⟩ := jsonStringValue_eq_some value
      omega
    · obtain ⟨after, name, compact⟩ := Option.bind_eq_some_iff.1 compact
      obtain ⟨value, equals, compact⟩ := Option.bind_eq_some_iff.1 compact
      rw [stripPrefix_eq_some] at name equals
      split at compact
      · cases compact
        have := compactValueLen_le value
        rw [name, equals]
        simp only [List.length_append, List.length_cons, List.length_nil]
        omega
      · cases compact
  · unfold matchShape at shape
    split at shape
    · obtain ⟨kind, mem, found⟩ := List.exists_of_findSome?_eq_some shape
      obtain ⟨payload, literal, found⟩ := Option.bind_eq_some_iff.1 found
      rw [stripPrefix_eq_some] at literal
      dsimp only at found
      split at found
      · cases found
        have run := (List.takeWhile_prefix (l := payload) kind.charset.contains).length_le
        have introduced : ∀ kind ∈ shapes, 0 < kind.literal.length := by decide
        have := introduced kind mem
        rw [literal, List.length_append]
        omega
      · cases found
    · cases shape

/-- The text ends where a member of an object begins. -/
def Delimited (text : List Char) : Prop := ∃ init last, text = init ++ [last] ∧ last ∈ ['\x7b', ',']

namespace Delimited

theorem seals {text chars : List Char} (h : Delimited text) (free : ∀ c ∈ ['\x7b', ','], c ∉ chars) :
    Sealed chars text := by
  obtain ⟨init, last, rfl, mem⟩ := h
  exact ⟨init, last, rfl, free last mem⟩

theorem ne_nil {text : List Char} (h : Delimited text) : text ≠ [] := by
  obtain ⟨init, last, rfl, -⟩ := h
  simp

theorem prepend {text : List Char} (h : Delimited text) (front : List Char) : Delimited (front ++ text) := by
  obtain ⟨init, last, rfl, mem⟩ := h
  exact ⟨front ++ init, last, by simp, mem⟩

theorem of_suffix {text rest : List Char} (h : Delimited text) (suffix : rest <:+ text)
    (nonempty : rest ≠ []) : Delimited rest := by
  obtain ⟨init, last, rfl, mem⟩ := h
  obtain ⟨front, eq⟩ := suffix
  rcases List.eq_nil_or_concat rest with rfl | ⟨rest, c, rfl⟩
  · exact absurd rfl nonempty
  · rw [List.concat_eq_append] at eq ⊢
    rw [← List.append_assoc] at eq
    have last_eq := (List.append_inj' eq rfl).2
    rw [List.cons.injEq] at last_eq
    exact ⟨rest, c, rfl, last_eq.1 ▸ mem⟩

/-- What is left after characters that delimit nothing. -/
theorem of_append {front rest : List Char} (h : Delimited (front ++ rest))
    (free : ∀ c ∈ ['\x7b', ','], c ∉ front) : Delimited rest := by
  refine h.of_suffix (List.suffix_append _ _) fun empty => ?_
  obtain ⟨init, last, eq, mem⟩ := h
  rw [empty, List.append_nil] at eq
  exact free last mem (by rw [eq]; simp)

theorem of_cons {c : Char} {rest : List Char} (h : Delimited (c :: rest)) (free : c ∉ ['\x7b', ',']) :
    Delimited rest := by
  refine @of_append [c] rest h fun d mem isc => free ?_
  rw [List.mem_singleton] at isc
  exact isc ▸ mem

theorem tail {c : Char} {rest : List Char} (h : Delimited (c :: rest)) : rest = [] ∨ Delimited rest := by
  by_cases empty : rest = []
  · exact Or.inl empty
  · exact Or.inr (h.of_suffix (List.suffix_cons _ _) empty)

/-- A delimiter ends every run of characters that has none. -/
theorem stops {text : List Char} {p : Char → Bool} (h : Delimited text)
    (free : ∀ c ∈ ['\x7b', ','], p c = false) : ∃ c ∈ text, p c = false := by
  obtain ⟨init, last, rfl, mem⟩ := h
  exact ⟨last, by simp, free last mem⟩

theorem dropWhile {text : List Char} {p : Char → Bool} (h : Delimited text)
    (free : ∀ c ∈ ['\x7b', ','], p c = false) : Delimited (text.dropWhile p) := by
  refine h.of_suffix (List.dropWhile_suffix _) ?_
  obtain ⟨c, mem, stop⟩ := h.stops free
  rw [Ne, List.dropWhile_eq_nil_iff]
  intro all
  rw [all c mem] at stop
  cases stop

end Delimited

theorem free_field {field : List Char} (mem : field ∈ secretFields) : ∀ c ∈ ['\x7b', ','], c ∉ field :=
  (by decide : ∀ field ∈ secretFields, ∀ c ∈ ['\x7b', ','], c ∉ field) field mem

theorem stripJsonName_append {rest field : List Char} (delimited : Delimited rest)
    (mem : field ∈ secretFields) (more : List Char) :
    stripJsonName (rest ++ more) field = (stripJsonName rest field).map (· ++ more) := by
  unfold stripJsonName
  rw [stripPrefix_append (delimited.seals (by decide))]
  cases opened : stripPrefix ['"'] rest with
  | none => rfl
  | some afterOpen =>
    rw [stripPrefix_eq_some] at opened
    have delimited := (opened ▸ delimited).of_append (by decide)
    simp only [Option.map_some, Option.bind_some]
    rw [stripPrefix_append (delimited.seals (free_field mem))]
    cases named : stripPrefix field afterOpen with
    | none => rfl
    | some afterName =>
      rw [stripPrefix_eq_some] at named
      have delimited := (named ▸ delimited).of_append (free_field mem)
      simp only [Option.map_some, Option.bind_some]
      rw [stripPrefix_append (delimited.seals (by decide))]
      cases closed : stripPrefix ['"'] afterName with
      | none => rfl
      | some afterClose =>
        rw [stripPrefix_eq_some] at closed
        have delimited := (closed ▸ delimited).of_append (by decide)
        simp only [Option.map_some, Option.bind_some]
        rw [dropWhile_append (delimited.stops (by decide)),
          stripPrefix_append ((delimited.dropWhile (by decide)).seals (by decide))]
        cases colon : stripPrefix [':'] (afterClose.dropWhile isWhitespace) with
        | none => rfl
        | some afterColon =>
          rw [stripPrefix_eq_some] at colon
          have delimited := (colon ▸ delimited.dropWhile (by decide)).of_append (by decide)
          simp only [Option.map_some]
          rw [dropWhile_append (delimited.stops (by decide))]

theorem stripJsonName_delimited {rest field after : List Char} (delimited : Delimited rest)
    (mem : field ∈ secretFields) (h : stripJsonName rest field = some after) : Delimited after := by
  obtain ⟨afterClose, afterColon, rfl, colon, rfl⟩ := stripJsonName_eq_some h
  have afterOpen := delimited.of_cons (by decide)
  have afterName := afterOpen.of_append (free_field mem)
  have close := (afterName.of_cons (by decide)).dropWhile (p := isWhitespace) (by decide)
  rw [colon] at close
  exact (close.of_cons (by decide)).dropWhile (by decide)

/-- A match that starts here has no end in the text: whatever follows the text decides how far it
reaches. -/
inductive Unfinished (previous : Option Char) (text : List Char) : Prop where
  | pem : pemBegin <+: text → pemClose text = none → Unfinished previous text
  | json (field body : List Char) : field ∈ secretFields → stripJsonName text field = some ('"' :: body) →
      closingQuote body = none → Unfinished previous text
  | quoted (field body : List Char) : field ∈ secretFields → isBoundary previous = true →
      text = field ++ '=' :: '"' :: body → closingQuote body = none → Unfinished previous text
  | bare (field value : List Char) : field ∈ secretFields → isBoundary previous = true →
      text = field ++ '=' :: value → value.head? ≠ some '"' →
      (∀ c ∈ value, isAsciiWhitespace c = false) → Unfinished previous text

theorem pemClose_append {rest : List Char} {n : Nat} (h : pemClose rest = some n) (more : List Char) :
    pemClose (rest ++ more) = some n := by
  obtain ⟨mark, found, h⟩ := Option.bind_eq_some_iff.1 h
  have bound := find_bound found
  rw [pemClose, find_append found, Option.bind_some, List.drop_append_of_le_length (by omega)]
  obtain ⟨close, found', rfl⟩ := Option.map_eq_some_iff.1 h
  rw [find_append found', Option.map_some]

theorem pemLength_of_close {rest : List Char} {n : Nat} (h : pemClose rest = some n) :
    pemLength rest = n := by
  rw [pemLength, h]
  rfl

theorem matchPem_append {previous : Option Char} {rest : List Char} (delimited : Delimited rest)
    (finished : ¬ Unfinished previous rest) (more : List Char) : matchPem (rest ++ more) = matchPem rest := by
  unfold matchPem
  rw [isPrefixOf_append (delimited.seals (by decide))]
  split
  · rename_i begins
    cases close : pemClose rest with
    | none => exact absurd (.pem (List.isPrefixOf_iff_prefix.1 begins) close) finished
    | some n =>
      rw [pemLength_of_close close, pemLength_of_close (pemClose_append close more),
        List.take_append_of_le_length (pemClose_bound close)]
  · rfl

theorem isPrefixOf_quote {rest : List Char} : ['"'].isPrefixOf rest = true ↔ ∃ body, rest = '"' :: body := by
  rw [List.isPrefixOf_iff_prefix]
  constructor
  · rintro ⟨body, rfl⟩
    exact ⟨body, rfl⟩
  · rintro ⟨body, rfl⟩
    exact List.prefix_append ['"'] body

theorem jsonStringValue_append_none {rest : List Char} (delimited : Delimited rest)
    (unquoted : ['"'].isPrefixOf rest = false) (more : List Char) :
    jsonStringValue (rest ++ more) = jsonStringValue rest := by
  have closed : stripPrefix ['"'] rest = none := by simp [stripPrefix, unquoted]
  unfold jsonStringValue
  rw [stripPrefix_append (delimited.seals (by decide)), closed]
  rfl

theorem matchJsonField_append {previous : Option Char} {rest field : List Char} (delimited : Delimited rest)
    (finished : ¬ Unfinished previous rest) (mem : field ∈ secretFields) (more : List Char) :
    matchJsonField (rest ++ more) field = matchJsonField rest field := by
  unfold matchJsonField
  rw [stripJsonName_append delimited mem]
  cases name : stripJsonName rest field with
  | none => rfl
  | some after =>
    have shorter := (stripJsonName_suffix name).length_le
    have start : (rest ++ more).length - (after ++ more).length = rest.length - after.length := by
      simp only [List.length_append]
      omega
    simp only [Option.map_some, Option.bind_some]
    rw [start, List.take_append_of_le_length (by omega)]
    by_cases quote : ['"'].isPrefixOf after = true
    · obtain ⟨body, rfl⟩ := isPrefixOf_quote.1 quote
      cases close : closingQuote body with
      | none => exact absurd (.json field body mem name close) finished
      | some count =>
        have found := jsonStringValue_quoted body
        rw [close, Option.map_some] at found
        rw [jsonStringValue_append found, found]
    · rw [jsonStringValue_append_none (stripJsonName_delimited delimited mem name)
        (Bool.eq_false_iff.2 quote)]

theorem compactValueLen_append {previous : Option Char} {field value : List Char}
    (delimited : Delimited value) (finished : ¬ Unfinished previous (field ++ '=' :: value))
    (mem : field ∈ secretFields) (boundary : isBoundary previous = true) (more : List Char) :
    compactValueLen (value ++ more) = compactValueLen value := by
  unfold compactValueLen
  rw [isPrefixOf_append (delimited.seals (by decide))]
  split
  · rename_i quote
    obtain ⟨body, rfl⟩ := isPrefixOf_quote.1 quote
    cases close : closingQuote body with
    | none => exact absurd (.quoted field body mem boundary rfl close) finished
    | some count =>
      have found := jsonStringValue_quoted body
      rw [close, Option.map_some] at found
      rw [jsonStringValue_append found, found]
      rfl
  · rename_i quote
    rw [takeWhile_append]
    by_contra runs
    push Not at runs
    refine finished (.bare field value mem boundary rfl ?_ fun c inside => by simpa using runs c inside)
    intro head
    obtain ⟨body, rfl⟩ := List.head?_eq_some_iff.1 head
    exact quote (isPrefixOf_quote.2 ⟨body, rfl⟩)

theorem matchCompactField_append {previous : Option Char} {rest field : List Char}
    (delimited : Delimited rest) (finished : ¬ Unfinished previous rest) (mem : field ∈ secretFields)
    (more : List Char) :
    matchCompactField previous (rest ++ more) field = matchCompactField previous rest field := by
  unfold matchCompactField
  rw [stripPrefix_append (delimited.seals (free_field mem))]
  cases name : stripPrefix field rest with
  | none => rfl
  | some after =>
    rw [stripPrefix_eq_some] at name
    subst name
    have delimited := delimited.of_append (free_field mem)
    simp only [Option.map_some, Option.bind_some]
    rw [stripPrefix_append (delimited.seals (by decide))]
    cases equals : stripPrefix ['='] after with
    | none => rfl
    | some value =>
      rw [stripPrefix_eq_some] at equals
      subst equals
      have delimited := delimited.of_append (by decide)
      simp only [Option.map_some, Option.bind_some]
      by_cases boundary : isBoundary previous = true
      · rw [compactValueLen_append delimited finished mem boundary,
          List.take_append_of_le_length (compactValueLen_le value)]
      · simp [boundary]

theorem findSome?_congr {α β : Type} {f g : α → Option β} {l : List α} (h : ∀ x ∈ l, f x = g x) :
    l.findSome? f = l.findSome? g := by
  induction l with
  | nil => rfl
  | cons x l ih =>
    rw [List.findSome?_cons, List.findSome?_cons, h x List.mem_cons_self,
      ih fun y mem => h y (List.mem_cons_of_mem _ mem)]

theorem matchField_append {previous : Option Char} {rest : List Char} (delimited : Delimited rest)
    (finished : ¬ Unfinished previous rest) (more : List Char) :
    matchField previous (rest ++ more) = matchField previous rest := by
  refine findSome?_congr fun field mem => ?_
  rw [matchJsonField_append delimited finished mem, matchCompactField_append delimited finished mem]

theorem matchShape_append {previous : Option Char} {rest : List Char} (delimited : Delimited rest)
    (more : List Char) : matchShape previous (rest ++ more) = matchShape previous rest := by
  unfold matchShape
  split
  · refine findSome?_congr fun shape mem => ?_
    have free : ∀ c ∈ ['\x7b', ','], c ∉ shape.literal :=
      (by decide : ∀ shape ∈ shapes, ∀ c ∈ ['\x7b', ','], c ∉ shape.literal) shape mem
    have outside : ∀ c ∈ ['\x7b', ','], shape.charset.contains c = false :=
      (by decide : ∀ shape ∈ shapes, ∀ c ∈ ['\x7b', ','], shape.charset.contains c = false) shape mem
    rw [stripPrefix_append (delimited.seals free)]
    cases literal : stripPrefix shape.literal rest with
    | none => rfl
    | some payload =>
      rw [stripPrefix_eq_some] at literal
      have delimited := (literal ▸ delimited).of_append free
      simp only [Option.map_some, Option.bind_some]
      rw [takeWhile_append (delimited.stops outside)]
  · rfl

/-- Text after a delimiter does not change a match that ends before it. -/
theorem matchAt_append {previous : Option Char} {rest : List Char} (delimited : Delimited rest)
    (finished : ¬ Unfinished previous rest) (more : List Char) :
    matchAt previous (rest ++ more) = matchAt previous rest := by
  unfold matchAt
  rw [matchPem_append delimited finished, matchField_append delimited finished, matchShape_append delimited]

end SupraHarness.Redact
