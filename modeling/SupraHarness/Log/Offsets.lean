import SupraHarness.Lib.Results
import SupraHarness.Lib.Slices
import SupraHarness.Log.Twice

/-!
# Redaction by offsets

The pass as it is written: a line is cut at offsets in bytes, the lengths of quoted values, of compact values and of
payloads are counted byte by byte, and what a match consumes is added to the offset. A slice off a boundary would end the
process. None is taken: every offset stands between two characters, and the pass emits what the pass over characters
does.
-/
namespace SupraHarness.Redact.Offsets

open Str Utf8 Slices Positions
open Scan (stripPrefix_eq_some)

/-- What keeps a pass from its end: a slice off a boundary, or a loop that goes on. -/
inductive Fault where
  | panic
  | endless
  deriving DecidableEq, Repr

/-- A slice, without which there is a panic. -/
def sliced {α : Type} (part : Option α) : Except Fault α :=
  match part with
  | some part => .ok part
  | none => .error .panic

/-- The bytes consumed from the input and the text to emit in their place. -/
abbrev Found := Option (Nat × List Char)

/-- Where nothing was found, the next rule is tried. -/
def orTry (first next : Except Fault Found) : Except Fault Found :=
  match first with
  | .ok none => next
  | first => first

/-- Where a block ends with an escaped line feed after the closing marker. -/
def pemClose (rest : List Char) : Except Fault (Option Nat) :=
  match find pemEndMark rest with
  | none => .ok none
  | some mark => (sliced (sliceFrom rest mark)).map fun tail =>
    (find pemLineEnd tail).map fun close => mark + close + size pemLineEnd

/-- Where a block ends when no line feed follows. -/
def pemDashes (rest : List Char) : Except Fault (Option Nat) :=
  match find pemEndMark rest with
  | none => .ok none
  | some mark => (sliced (sliceFrom rest (mark + 9))).map fun tail =>
    (find "-----".toList tail).map fun close => mark + 9 + close + 5

def pemEnd (rest : List Char) : Except Fault Nat := do
  match ← pemClose rest with
  | some stop => return stop
  | none => return (← pemDashes rest).getD (size rest)

/-- A PEM block, redacted whole. -/
def matchPem (line : List Char) (index : Nat) : Except Fault Found := do
  let rest ← sliced (sliceFrom line index)
  if pemBegin.isPrefixOf rest then (pemEnd rest).map fun stop => some (stop, marker stop) else return none

/-- The offset of the closing quote; a backslash takes the byte after it along. -/
def closingQuote : List UInt8 → Option Nat
  | [] => none
  | byte :: bytes =>
    if byte = 0x5C then
      match bytes with
      | [] => none
      | _ :: bytes => (closingQuote bytes).map (· + 2)
    else if byte = 0x22 then some 0
    else (closingQuote bytes).map (· + 1)

/-- Length of a JSON string value and the bytes it occupies including its quotes. -/
def jsonStringValue (rest : List Char) : Option (Nat × Nat) :=
  (stripPrefix ['"'] rest).bind fun body => (closingQuote (encode body)).map fun stop => (stop, stop + 2)

/-- `u8::is_ascii_whitespace` -/
def isAsciiWhitespace (byte : UInt8) : Bool := byte ∈ [0x20, 0x09, 0x0A, 0x0C, 0x0D]

/-- `u8::is_ascii_alphanumeric` -/
def isAsciiAlphanumeric (byte : UInt8) : Bool :=
  (0x30 ≤ byte && byte ≤ 0x39) || (0x41 ≤ byte && byte ≤ 0x5A) || (0x61 ≤ byte && byte ≤ 0x7A)

def contains (charset : Charset) (byte : UInt8) : Bool :=
  match charset with
  | .token => isAsciiAlphanumeric byte || byte ∈ [0x2D, 0x5F, 0x2E, 0x2B, 0x2F]
  | .upper => (0x41 ≤ byte && byte ≤ 0x5A) || (0x30 ≤ byte && byte ≤ 0x39)

def compactValueLen (value : List Char) : Nat :=
  if ['"'].isPrefixOf value then ((jsonStringValue value).map Prod.snd).getD (size value)
  else ((encode value).takeWhile fun byte => !isAsciiWhitespace byte).length

/-- A byte that a token may go on after. -/
def inToken (previous : UInt8) : Bool := isAsciiAlphanumeric previous || previous ∈ [0x2D, 0x5F, 0x2E]

/-- Whether an offset starts a token rather than sitting inside one. -/
def isBoundary (bytes : List UInt8) (index : Nat) : Except Fault Bool :=
  if index = 0 then .ok true else (sliced bytes[index - 1]?).map fun previous => !inToken previous

/-- The quoted name, a colon, then a quoted value. -/
def matchJsonField (rest field : List Char) : Except Fault Found :=
  match (stripJsonName rest field).bind fun afterName => (jsonStringValue afterName).map (afterName, ·) with
  | none => .ok none
  | some (afterName, valueLen, total) =>
    (sliced (sliceTo rest (size rest - size afterName))).map fun head =>
      some (size rest - size afterName + total, head ++ ['"'] ++ marker valueLen ++ ['"'])

/-- The bare name, an equals sign, then a bare or quoted value. -/
def matchCompactField (line : List Char) (index : Nat) (rest field : List Char) : Except Fault Found :=
  match (stripPrefix field rest).bind (stripPrefix ['=']) with
  | none => .ok none
  | some value => (isBoundary (encode line) index).map fun boundary =>
    if boundary && 0 < compactValueLen value then
      some (size field + 1 + compactValueLen value, field ++ ['='] ++ marker (compactValueLen value))
    else none

/-- A named field whose value is secret whatever it looks like. -/
def matchField (line : List Char) (index : Nat) : Except Fault Found := do
  let rest ← sliced (sliceFrom line index)
  secretFields.findSomeM? fun field => orTry (matchJsonField rest field) (matchCompactField line index rest field)

/-- One prefixed credential shape. -/
def matchOne (line : List Char) (index : Nat) (rest : List Char) (shape : Shape) : Except Fault Found :=
  if shape.literal.isPrefixOf rest then
    (sliced (if index + size shape.literal ≤ size line then some ((encode line).drop (index + size shape.literal))
      else none)).map fun payload =>
      let length := (payload.takeWhile (contains shape.charset)).length
      if shape.minPayload ≤ length then some (size shape.literal + length, shape.literal ++ marker length) else none
  else .ok none

/-- A prefixed credential shape. -/
def matchShape (line : List Char) (index : Nat) : Except Fault Found := do
  match ← isBoundary (encode line) index with
  | false => return none
  | true =>
    let rest ← sliced (sliceFrom line index)
    shapes.findSomeM? (matchOne line index rest)

/-- Try every mechanism at one offset. -/
def matchAt (line : List Char) (index : Nat) : Except Fault Found :=
  orTry (orTry (matchPem line index) (matchField line index)) (matchShape line index)

/-- The slice for the character starting at an offset. -/
def nextCharSlice (line : List Char) (index : Nat) : List Char :=
  let stop := ((List.range' (index + 1) (size line - index)).find? (isCharBoundary line)).getD (size line)
  (get line index stop).getD []

/-- Byte length of the character starting at an offset. -/
def sliceLen (line : List Char) (index : Nat) : Nat := max (size (nextCharSlice line index)) 1

/-- The loop over the offsets, for at most as many rounds as there is fuel. -/
def loop (line : List Char) : Nat → Nat → List Char → Except Fault (List Char)
  | 0, _, _ => .error .endless
  | fuel + 1, index, out =>
    if index < size line then
      match matchAt line index with
      | .error fault => .error fault
      | .ok (some (consumed, replacement)) => loop line fuel (index + consumed) (out ++ replacement)
      | .ok none =>
        loop line fuel (index + sliceLen line index)
          (out ++ (get line index (index + 1)).getD (nextCharSlice line index))
    else .ok out

/-- The full matcher run at every offset of the line. -/
def sweep (line : List Char) : Except Fault (List Char) := loop line (size line + 1) 0 []

inductive Cow where
  | borrowed (text : List Char)
  | owned (text : List Char)
  deriving DecidableEq, Repr

def Cow.text : Cow → List Char
  | borrowed text => text
  | owned text => text

/-- Remove anything that looks like a credential from one formatted line. -/
def redact (line : List Char) : Except Fault Cow :=
  if mightContainSecret line then (sweep line).map fun out => if out = line then .borrowed line else .owned out
  else .ok (.borrowed line)

/-! ## Lengths -/

theorem size_eq (text : List Char) : size text = utf8Len text := by
  induction text with
  | nil => rfl
  | cons c text ih => rw [size_cons, utf8Len_cons, ih]

theorem charset_wide (charset : Charset) {c : Char} (wide : 128 ≤ c.toNat) : charset.contains c = false := by
  rw [Bool.eq_false_iff]
  intro made
  have low := Char.utf8Size_eq_one_iff.1 (Charset.ascii made)
  have ascii : c.toNat ≤ 127 := UInt32.le_iff_toNat_le.1 low
  omega

theorem ne_of_wide {c d : Char} (wide : 128 ≤ c.toNat) (ascii : d.toNat < 128) : c ≠ d := by
  rintro rfl
  omega

/-- A backslash or a quote. -/
def marks (byte : UInt8) : Bool := byte = 0x5C || byte = 0x22

/-- The tests of bytes against the tests of characters, byte by byte. -/
theorem tests_onBytes :
    (∀ charset ∈ [Charset.token, .upper], OnBytes (contains charset) charset.contains false) ∧
    OnBytes inToken (fun c => c.isAlphanum || c ∈ ['-', '_', '.']) false ∧
    OnBytes (fun byte => !isAsciiWhitespace byte) (fun c => !Redact.isAsciiWhitespace c) true ∧
    OnBytes marks (fun c => c = '\\' || c = '"') false := by
  decide +kernel

theorem contains_agrees (charset : Charset) : Agrees (contains charset) charset.contains false :=
  (tests_onBytes.1 charset (by cases charset <;> simp)).agrees fun _ wide => charset_wide charset wide

theorem inToken_agrees : Agrees inToken (fun c => c.isAlphanum || c ∈ ['-', '_', '.']) false := by
  refine tests_onBytes.2.1.agrees fun c wide => ?_
  have outside := charset_wide .token wide
  simp only [Charset.contains, List.mem_cons, Bool.or_eq_false_iff, decide_eq_false_iff_not, not_or] at outside ⊢
  exact ⟨outside.1, outside.2.1, outside.2.2.1, outside.2.2.2.1, by simp⟩

theorem whitespace_agrees :
    Agrees (fun byte => !isAsciiWhitespace byte) (fun c => !Redact.isAsciiWhitespace c) true := by
  refine tests_onBytes.2.2.1.agrees fun c wide => ?_
  have others : ∀ d ∈ [' ', '\t', '\n', '\x0C', '\r'], d.toNat < 128 := by decide
  rw [Bool.not_eq_true', Redact.isAsciiWhitespace, decide_eq_false_iff_not]
  exact fun mem => ne_of_wide wide (others c mem) rfl

theorem marks_agrees : Agrees marks (fun c => c = '\\' || c = '"') false := by
  refine tests_onBytes.2.2.2.agrees fun c wide => ?_
  rw [Bool.or_eq_false_iff, decide_eq_false_iff_not, decide_eq_false_iff_not]
  exact ⟨ne_of_wide wide (by decide), ne_of_wide wide (by decide)⟩

/-! ## Quoted values -/

theorem closingQuote_pass {bytes : List UInt8} (plain : ∀ byte ∈ bytes, marks byte = false) (rest : List UInt8) :
    closingQuote (bytes ++ rest) = (closingQuote rest).map (· + bytes.length) := by
  induction bytes with
  | nil => simp
  | cons byte bytes ih =>
    rw [List.forall_mem_cons, marks, Bool.or_eq_false_iff, decide_eq_false_iff_not, decide_eq_false_iff_not] at plain
    rw [List.cons_append, closingQuote.eq_def]
    simp only [if_neg plain.1.1, if_neg plain.1.2]
    rw [ih plain.2, Option.map_map]
    rfl

theorem closingQuote_encode (body : List Char) :
    closingQuote (encode body) = (Redact.closingQuote body).map fun count => size (body.take count) := by
  have back : String.utf8EncodeChar '\\' = [0x5C] := rfl
  have quote : String.utf8EncodeChar '"' = [0x22] := rfl
  induction body using Redact.closingQuote.induct with
  | case1 => rfl
  | case2 => rfl
  | case3 c body ih =>
    obtain ⟨lead, more, shape, -, goes⟩ := utf8EncodeChar_shape c
    have plain : ∀ byte ∈ more, marks byte = false := by
      intro byte mem
      have high := goes byte mem
      rw [continuation, Bool.and_eq_true, decide_eq_true_eq, UInt8.le_iff_toNat_le] at high
      have wide := marks_agrees.wideByte byte.toNat byte.toNat_lt high.1
      rwa [UInt8.ofNat_toNat] at wide
    have long : c.utf8Size = more.length + 1 := by
      rw [← String.length_utf8EncodeChar, shape, List.length_cons]
    rw [closingQuote_escape, encode_cons, encode_cons, back, shape, List.singleton_append, List.cons_append]
    change (closingQuote (more ++ encode body)).map (· + 2) = _
    rw [closingQuote_pass plain, ih, Option.map_map, Option.map_map, Option.map_map]
    refine congrArg (Option.map · (Redact.closingQuote body)) (funext fun count => ?_)
    have two : ('\\' : Char).utf8Size = 1 := rfl
    simp only [Function.comp_apply, List.take_succ_cons, size_cons, long, two]
    omega
  | case4 body _ =>
    rw [closingQuote_quote, encode_cons, quote, List.singleton_append, closingQuote.eq_def]
    rfl
  | case5 c body back quote ih =>
    have plain : ∀ byte ∈ String.utf8EncodeChar c, marks byte = false := by
      intro byte mem
      rw [marks_agrees.bytes c byte mem, Bool.or_eq_false_iff, decide_eq_false_iff_not, decide_eq_false_iff_not]
      exact ⟨back, quote⟩
    rw [closingQuote_other back quote, encode_cons, closingQuote_pass plain, ih, Option.map_map, Option.map_map]
    refine congrArg (Option.map · (Redact.closingQuote body)) (funext fun count => ?_)
    rw [Function.comp_apply, Function.comp_apply, List.take_succ_cons, size_cons, String.length_utf8EncodeChar,
      Nat.add_comm]

/-- A quoted value, by offsets and by characters. -/
theorem jsonStringValue_eq (rest : List Char) :
    jsonStringValue rest = (Redact.jsonStringValue rest).map fun found => (found.1, size (rest.take found.2)) := by
  rw [jsonStringValue, Redact.jsonStringValue]
  cases opened : stripPrefix ['"'] rest with
  | none => rfl
  | some body =>
    rw [stripPrefix_eq_some] at opened
    subst opened
    rw [Option.bind_some, Option.bind_some, closingQuote_encode, Option.map_map, Option.map_map]
    cases close : Redact.closingQuote body with
    | none => rfl
    | some count =>
      obtain ⟨value, after, rfl, rfl⟩ := closingQuote_split close
      have one : ('"' : Char).utf8Size = 1 := rfl
      have whole : (['"'] ++ (value ++ '"' :: after)).take (value.length + 2) = '"' :: (value ++ ['"']) := by
        rw [List.singleton_append, List.take_succ_cons, List.take_length_add_append]
        rfl
      simp only [Option.map_some, Function.comp_apply, whole, List.take_left]
      rw [size_cons, size_append, size_cons, one, size_nil, size_eq]
      refine congrArg some (Prod.ext rfl ?_)
      dsimp only
      omega

theorem compactValueLen_eq (value : List Char) :
    compactValueLen value = size (value.take (Redact.compactValueLen value)) := by
  rw [compactValueLen, Redact.compactValueLen]
  split
  · rw [jsonStringValue_eq]
    cases Redact.jsonStringValue value with
    | none => rw [Option.map_none, Option.map_none, Option.getD_none, Option.getD_none, List.take_length]
    | some found => rfl
  · rw [whitespace_agrees.takeWhile, ← List.prefix_iff_eq_take.1 (List.takeWhile_prefix _)]
    rfl

/-! ## Matches -/

/-- A match of characters, with the bytes that it consumes. -/
def inBytes (rest : List Char) (found : Nat × List Char) : Nat × List Char := (size (rest.take found.1), found.2)

variable (front rest : List Char)

theorem isBoundary_eq : isBoundary (encode (front ++ rest)) (size front) = .ok (Redact.isBoundary front.getLast?) := by
  rcases List.eq_nil_or_concat front with rfl | ⟨init, c, rfl⟩
  · rfl
  · rw [List.concat_eq_append]
    obtain ⟨byte, last, answer⟩ := inToken_agrees.last init c
    have pos : 0 < size (init ++ [c]) := by
      have := c.utf8Size_pos
      rw [size_append, size_cons]
      omega
    have before : (encode (init ++ [c] ++ rest))[size (init ++ [c]) - 1]? = some byte := by
      have within : size (init ++ [c]) - 1 < (encode (init ++ [c])).length := Nat.sub_lt pos Nat.zero_lt_one
      rw [encode_append, List.getElem?_append_left within, ← last, List.getLast?_eq_getElem?, size]
    rw [isBoundary, if_neg (Nat.ne_of_gt pos), before, List.getLast?_concat, Redact.isBoundary, ← answer]
    rfl

theorem pemClose_eq : pemClose rest = .ok ((Redact.pemClose rest).map fun count => size (rest.take count)) := by
  rw [pemClose, Redact.pemClose]
  rcases find_cases pemEndMark rest with ⟨offset, chars⟩ | ⟨before, tail, rfl, offset, chars⟩
  · rw [offset, chars]
    rfl
  · rw [offset, chars, Option.bind_some, List.drop_left]
    dsimp only
    rw [sliceFrom_size]
    generalize pemEndMark ++ tail = tail
    rcases find_cases pemLineEnd tail with ⟨offset, chars⟩ | ⟨inside, after, rfl, offset, chars⟩
    · rw [chars]
      simp only [sliced, Except.map, offset, Option.map_none]
    · have whole : (before ++ (inside ++ (pemLineEnd ++ after))).take (before.length + inside.length + pemLineEnd.length) =
          before ++ (inside ++ pemLineEnd) := by
        rw [Nat.add_assoc, List.take_length_add_append, List.take_length_add_append, List.take_left]
      rw [chars]
      simp only [sliced, Except.map, offset, Option.map_some, whole]
      rw [size_append, size_append, Nat.add_assoc]

theorem pemDashes_eq : pemDashes rest = .ok ((Redact.pemDashes rest).map fun count => size (rest.take count)) := by
  rw [pemDashes, Redact.pemDashes]
  rcases find_cases pemEndMark rest with ⟨offset, chars⟩ | ⟨before, tail, rfl, offset, chars⟩
  · rw [offset, chars]
    rfl
  · have nine : size (before ++ pemEndMark) = size before + 9 := size_append _ _
    have behind : (before ++ (pemEndMark ++ tail)).drop (before.length + 9) = tail := by
      rw [List.drop_length_add_append]
      rfl
    rw [offset, chars, Option.bind_some, behind]
    dsimp only
    rw [← List.append_assoc, ← nine, sliceFrom_size]
    rcases find_cases "-----".toList tail with ⟨offset, chars⟩ | ⟨inside, after, rfl, offset, chars⟩
    · rw [chars]
      simp only [sliced, Except.map, offset, Option.map_none]
    · have whole : (before ++ pemEndMark ++ (inside ++ ("-----".toList ++ after))).take
            (before.length + 9 + inside.length + 5) = before ++ pemEndMark ++ (inside ++ "-----".toList) := by
        have front : before.length + 9 = (before ++ pemEndMark).length := by
          rw [List.length_append]
          rfl
        have dashes : 5 = "-----".toList.length := rfl
        rw [front, Nat.add_assoc, dashes, List.take_length_add_append, List.take_length_add_append, List.take_left]
      have five : size "-----".toList = 5 := rfl
      rw [chars]
      simp only [sliced, Except.map, offset, Option.map_some, whole]
      rw [size_append (before ++ pemEndMark), size_append inside, five, Nat.add_assoc]

theorem pemEnd_eq : pemEnd rest = .ok (size (rest.take (pemLength rest))) := by
  rw [pemEnd, pemClose_eq, pemLength]
  cases Redact.pemClose rest with
  | some count => rfl
  | none =>
    change (pemDashes rest >>= fun stop => .ok (stop.getD (size rest))) = _
    rw [pemDashes_eq]
    cases Redact.pemDashes rest with
    | some count => rfl
    | none =>
      change Except.ok (size rest) = .ok (size (rest.take rest.length))
      rw [List.take_length]

theorem matchPem_eq : matchPem (front ++ rest) (size front) = .ok ((Redact.matchPem rest).map (inBytes rest)) := by
  rw [matchPem, sliceFrom_size, Redact.matchPem]
  change (if pemBegin.isPrefixOf rest then (pemEnd rest).map fun stop => some (stop, marker stop) else .ok none) = _
  split
  · rw [pemEnd_eq, ← size_eq]
    rfl
  · rfl

theorem matchJsonField_eq (field : List Char) :
    matchJsonField rest field = .ok ((Redact.matchJsonField rest field).map (inBytes rest)) := by
  rw [matchJsonField, Redact.matchJsonField]
  cases stripped : stripJsonName rest field with
  | none => rfl
  | some after =>
    obtain ⟨head, rfl⟩ := stripJsonName_suffix stripped
    rw [Option.bind_some, Option.bind_some, jsonStringValue_eq]
    cases string : Redact.jsonStringValue after with
    | none => rfl
    | some found =>
      have bytes : size (head ++ after) - size after = size head := by rw [size_append, Nat.add_sub_cancel]
      have chars : (head ++ after).length - after.length = head.length := by
        rw [List.length_append, Nat.add_sub_cancel]
      have whole : (head ++ after).take (head.length + found.2) = head ++ after.take found.2 :=
        List.take_length_add_append _
      simp only [Option.map_some]
      rw [bytes, chars, sliceTo_size, inBytes, whole, List.take_left, size_append]
      rfl

theorem matchCompactField_eq (field : List Char) : matchCompactField (front ++ rest) (size front) rest field =
    .ok ((Redact.matchCompactField front.getLast? rest field).map (inBytes rest)) := by
  rw [matchCompactField, Redact.matchCompactField]
  cases named : stripPrefix field rest with
  | none => rfl
  | some after =>
    rw [Option.bind_some, Option.bind_some]
    cases equals : stripPrefix ['='] after with
    | none => rfl
    | some value =>
      rw [stripPrefix_eq_some] at named equals
      subst named equals
      have none_or_some : 0 < size (value.take (Redact.compactValueLen value)) ↔ 0 < Redact.compactValueLen value := by
        have le := compactValueLen_le value
        generalize Redact.compactValueLen value = count at le
        cases count with
        | zero => simp
        | succ count =>
          cases value with
          | nil => cases le
          | cons c value =>
            have := c.utf8Size_pos
            rw [List.take_succ_cons, size_cons]
            omega
      have whole : (field ++ (['='] ++ value)).take (field.length + 1 + Redact.compactValueLen value) =
          field ++ (['='] ++ value.take (Redact.compactValueLen value)) := by
        rw [Nat.add_assoc, List.take_length_add_append, Nat.add_comm]
        rfl
      have one : size ['='] = 1 := rfl
      rw [Option.bind_some, isBoundary_eq]
      simp only [Except.map, compactValueLen_eq, none_or_some]
      split
      · rw [Option.map_some, inBytes, whole, size_append, size_append, one, Nat.add_assoc, size_eq (value.take _)]
      · rfl

@[simp] theorem orTry_ok (first next : Found) : orTry (.ok first) (.ok next) = .ok (first.or next) := by
  cases first <;> rfl

theorem matchField_eq : matchField (front ++ rest) (size front) =
    .ok ((Redact.matchField front.getLast? rest).map (inBytes rest)) := by
  rw [matchField, sliceFrom_size, Redact.matchField, List.map_findSome?]
  refine Results.findSomeM?_ok fun field _ => ?_
  rw [matchJsonField_eq, matchCompactField_eq, orTry_ok, Function.comp_apply, Option.map_or]

theorem matchOne_eq (shape : Shape) : matchOne (front ++ rest) (size front) rest shape =
    .ok (((stripPrefix shape.literal rest).bind fun payload =>
      let length := (payload.takeWhile shape.charset.contains).length
      if shape.minPayload ≤ length then some (shape.literal.length + length, shape.literal ++ marker length)
      else none).map (inBytes rest)) := by
  rw [matchOne]
  split
  · rename_i starts
    obtain ⟨payload, rfl⟩ := List.isPrefixOf_iff_prefix.1 starts
    have made : utf8Len (payload.takeWhile shape.charset.contains) = (payload.takeWhile shape.charset.contains).length :=
      utf8Len_made fun c mem => List.mem_takeWhile_imp mem
    have length : ((encode payload).takeWhile (contains shape.charset)).length =
        (payload.takeWhile shape.charset.contains).length := by
      rw [(contains_agrees shape.charset).takeWhile, ← made, ← size_eq, size]
    have room : size front + size shape.literal ≤ size (front ++ (shape.literal ++ payload)) := by
      rw [size_append, size_append]
      omega
    have behind : (encode (front ++ (shape.literal ++ payload))).drop (size front + size shape.literal) = encode payload := by
      rw [← size_append, ← List.append_assoc, encode_append]
      exact List.drop_left
    have stripped : stripPrefix shape.literal (shape.literal ++ payload) = some payload := stripPrefix_eq_some.2 rfl
    rw [if_pos room, behind, stripped, Option.bind_some]
    simp only [sliced, Except.map, length]
    split
    · have whole : (shape.literal ++ payload).take (shape.literal.length + (payload.takeWhile shape.charset.contains).length) =
          shape.literal ++ payload.takeWhile shape.charset.contains := by
        rw [List.take_length_add_append, ← List.prefix_iff_eq_take.1 (List.takeWhile_prefix _)]
      rw [Option.map_some, inBytes, whole, size_append, size_eq (payload.takeWhile _), made]
    · rfl
  · rename_i other
    have stripped : stripPrefix shape.literal rest = none := if_neg other
    rw [stripped]
    rfl

theorem matchShape_eq : matchShape (front ++ rest) (size front) =
    .ok ((Redact.matchShape front.getLast? rest).map (inBytes rest)) := by
  rw [matchShape, isBoundary_eq, Redact.matchShape]
  cases Redact.isBoundary front.getLast? with
  | false => rfl
  | true =>
    rw [if_pos rfl, List.map_findSome?]
    change (sliced (sliceFrom (front ++ rest) (size front)) >>= fun rest' =>
      shapes.findSomeM? (matchOne (front ++ rest) (size front) rest')) = _
    rw [sliceFrom_size]
    exact Results.findSomeM?_ok fun shape _ => matchOne_eq front rest shape

/-- At a boundary the matcher by offsets finds what the matcher by characters finds. -/
theorem matchAt_eq : matchAt (front ++ rest) (size front) =
    .ok ((Redact.matchAt front.getLast? rest).map (inBytes rest)) := by
  rw [matchAt, matchPem_eq, matchField_eq, matchShape_eq, orTry_ok, orTry_ok, Redact.matchAt, Option.map_or,
    Option.map_or]

/-! ## Passes -/

theorem nextCharSlice_eq (c : Char) : nextCharSlice (front ++ c :: rest) (size front) = [c] := by
  have pos := c.utf8Size_pos
  have behind : Boundary (front ++ c :: rest) (size front + c.utf8Size) :=
    ⟨front ++ [c], rest, by simp, by rw [size_append, size_cons, size_nil, Nat.add_zero]⟩
  have stop : (List.range' (size front + 1) (size (front ++ c :: rest) - size front)).find?
      (isCharBoundary (front ++ c :: rest)) = some (size front + c.utf8Size) := by
    rw [List.find?_range'_eq_some]
    refine ⟨isCharBoundary_iff.2 behind, ?_, fun index ge lt => ?_⟩
    · rw [size_append, size_cons, List.mem_range'_1]
      omega
    · obtain ⟨inside, rfl⟩ := Nat.exists_eq_add_of_le (Nat.le_of_succ_le ge)
      rw [Bool.not_eq_true', Bool.eq_false_iff, Ne, isCharBoundary_iff]
      exact not_boundary_inside (by omega) (by omega)
  have one : c.utf8Size = size [c] := by rw [size_cons, size_nil, Nat.add_zero]
  have whole := get_size front [c] rest
  rw [nextCharSlice, stop, Option.getD_some, one]
  rw [List.singleton_append] at whole
  rw [whole, Option.getD_some]

/-- Where nothing matches, the character is copied. -/
theorem copied_eq (c : Char) : (get (front ++ c :: rest) (size front) (size front + 1)).getD
    (nextCharSlice (front ++ c :: rest) (size front)) = [c] := by
  by_cases one : c.utf8Size = 1
  · have whole := get_size front [c] rest
    rw [size_cons, size_nil, one, List.singleton_append] at whole
    rw [whole, Option.getD_some]
  · have pos := c.utf8Size_pos
    have none_ : split (front ++ c :: rest) (size front + 1) = none := by
      cases parts : split (front ++ c :: rest) (size front + 1) with
      | none => rfl
      | some parts => exact absurd ⟨_, _, split_eq_some_iff.1 parts⟩ (not_boundary_inside Nat.zero_lt_one (by omega))
    rw [Slices.get, if_pos (Nat.le_succ _), sliceTo, none_, nextCharSlice_eq]
    rfl

theorem sliceLen_eq (c : Char) : sliceLen (front ++ c :: rest) (size front) = c.utf8Size := by
  have pos := c.utf8Size_pos
  rw [sliceLen, nextCharSlice_eq, size_cons, size_nil, Nat.add_zero]
  exact Nat.max_eq_left pos

/-- The loop from a boundary on is the pass over the characters behind it. -/
theorem loop_eq {fuel : Nat} (out : List Char) (enough : rest.length < fuel) :
    loop (front ++ rest) fuel (size front) out = .ok (out ++ scan front.getLast? 0 rest) := by
  induction fuel generalizing front rest out with
  | zero => cases enough
  | succ fuel ih =>
    cases rest with
    | nil =>
      rw [List.append_nil, loop, if_neg (Nat.lt_irrefl _), scan, List.append_nil]
    | cons c rest =>
      have more : size front < size (front ++ c :: rest) := by
        have := c.utf8Size_pos
        rw [size_append, size_cons]
        omega
      rw [List.length_cons] at enough
      rw [loop, if_pos more, matchAt_eq]
      cases found : Redact.matchAt front.getLast? (c :: rest) with
      | none =>
        have onward := ih (front ++ [c]) rest (out ++ [c]) (by omega)
        rw [size_append, size_cons, size_nil, Nat.add_zero, List.append_assoc, List.singleton_append,
          List.getLast?_concat, List.append_assoc, List.singleton_append] at onward
        rw [scan_none found, Option.map_none]
        dsimp only
        rw [copied_eq, sliceLen_eq, onward]
      | some result =>
        obtain ⟨count, replacement⟩ := result
        obtain ⟨pos, le⟩ := matchAt_bounds found (by simp)
        obtain ⟨count, rfl⟩ : ∃ before, count = before + 1 := ⟨count - 1, by omega⟩
        rw [List.length_cons, Nat.add_le_add_iff_right] at le
        have onward := ih (front ++ c :: rest.take count) (rest.drop count) (out ++ replacement)
          (by rw [List.length_drop]; omega)
        have passed := @scan_over (rest.take count) (some c) (rest.drop count)
        rw [List.length_take_of_le le, List.take_append_drop] at passed
        rw [List.append_assoc, List.cons_append, List.take_append_drop, size_append, List.getLast?_append,
          List.getLast?_cons] at onward
        rw [scan_match (by simp) found, Option.map_some, inBytes]
        simp only [List.take_succ_cons, List.head?_cons, List.tail_cons, Nat.add_sub_cancel]
        rw [passed, onward, List.append_assoc]
        cases (rest.take count).getLast? <;> rfl

theorem sweep_eq (line : List Char) : sweep line = .ok (scan none 0 line) := by
  have enough : line.length < size line + 1 := by
    rw [size_eq]
    exact Nat.lt_succ_of_le (length_le_utf8Len line)
  exact loop_eq [] line [] enough

theorem redact_eq (line : List Char) : ∃ cow, redact line = .ok cow ∧ cow.text = Redact.redact line := by
  rw [redact, Redact.redact, sweep_eq]
  split
  · by_cases same : scan none 0 line = line
    · exact ⟨.borrowed line, congrArg Except.ok (if_pos same), same.symm⟩
    · exact ⟨.owned (scan none 0 line), congrArg Except.ok (if_neg same), rfl⟩
  · exact ⟨.borrowed line, rfl, rfl⟩

theorem matchAt_end (previous : Option Char) : Redact.matchAt previous [] = none := by
  rw [Redact.matchAt, Redact.matchShape]
  cases Redact.isBoundary previous <;> rfl

/-- Redaction of any line ends without a panic, with what the full matcher emits that is run at every offset. Nothing
matches at any offset of a line that the pre-check turns away, and every match, at any boundary, consumes bytes and ends
at a boundary. -/
theorem redact_is_total (line : List Char) :
    (∃ cow, redact line = .ok cow ∧ sweep line = .ok cow.text ∧ cow.text = Redact.redact line) ∧
    (mightContainSecret line = false → ∀ index, isCharBoundary line index = true → matchAt line index = .ok none) ∧
    ∀ index, isCharBoundary line index = true → ∃ found, matchAt line index = .ok found ∧
      ∀ hit ∈ found, 0 < hit.1 ∧ isCharBoundary line (index + hit.1) = true := by
  refine ⟨?_, fun passed index boundary => ?_, fun index boundary => ?_⟩
  · obtain ⟨cow, run, text⟩ := redact_eq line
    exact ⟨cow, run, by rw [sweep_eq, text, redact_eq_scan], text⟩
  · obtain ⟨front, rest, rfl, rfl⟩ := isCharBoundary_iff.1 boundary
    rw [matchAt_eq]
    cases found : Redact.matchAt front.getLast? rest with
    | none => rfl
    | some result =>
      rw [mightContainSecret_of_matchAt found front] at passed
      cases passed
  · obtain ⟨front, rest, rfl, rfl⟩ := isCharBoundary_iff.1 boundary
    refine ⟨_, matchAt_eq front rest, ?_⟩
    rintro hit mem
    obtain ⟨⟨count, replacement⟩, found, rfl⟩ := Option.map_eq_some_iff.1 mem
    cases rest with
    | nil =>
      rw [matchAt_end] at found
      cases found
    | cons c rest =>
      obtain ⟨pos, -⟩ := matchAt_bounds found (by simp)
      obtain ⟨count, rfl⟩ : ∃ before, count = before + 1 := ⟨count - 1, by omega⟩
      refine ⟨?_, isCharBoundary_iff.2 ⟨front ++ (c :: rest).take (count + 1), (c :: rest).drop (count + 1), ?_, ?_⟩⟩
      · have := c.utf8Size_pos
        rw [inBytes, List.take_succ_cons, size_cons]
        omega
      · rw [List.append_assoc, List.take_append_drop]
      · rw [inBytes, size_append]

end SupraHarness.Redact.Offsets
