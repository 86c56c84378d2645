import SupraHarness.Lib.JsonGrammar
import SupraHarness.Llm.Value

/-!
# The duplicate-key scanner

The pass over the raw text that runs before the JSON parser and refuses an object that repeats a
key. A cursor into the text is the bytes that are left of it. Taking a part of a string at an index
inside a character panics; what ends the recursion of the model short of its result is kept apart.
-/
namespace SupraHarness.Llm

inductive CanonicalError where
  | float (path : String)
  | duplicateKey (key path : String)
  | invalid (detail : String)
  | numberOutOfRange (path : String)
  deriving DecidableEq, Repr

/-- How a scan ends that does not return. -/
inductive Stop where
  | err (e : CanonicalError)
  | panic
  | exhausted
  deriving DecidableEq, Repr

def invalid {α : Type} (detail : String) : Except Stop α := .error (.err (.invalid detail))

def duplicateKey (key : List Char) : Stop := .err (.duplicateKey (String.ofList key) "$")

namespace Scanner

/-- `is_char_boundary` at the cursor. -/
def isCharBoundary : List UInt8 → Bool
  | [] => true
  | byte :: _ => !Utf8.continuation byte

/-- `text.get(position..position + len)`. -/
def get (rest : List UInt8) (len : Nat) : Option (List UInt8) :=
  if len ≤ rest.length ∧ isCharBoundary rest ∧ isCharBoundary (rest.drop len) then
    some (rest.take len)
  else none

/-- `&text[position..position + len]`. -/
def slice (rest : List UInt8) (len : Nat) : Except Stop (List UInt8) :=
  match get rest len with
  | some part => .ok part
  | none => .error .panic

/-- `&text[position..]`. -/
def sliceFrom (rest : List UInt8) : Except Stop (List UInt8) :=
  if isCharBoundary rest then .ok rest else .error .panic

/-- `chars().next()`. -/
def firstChar (text : List UInt8) : Option Char := text.toByteArray.utf8DecodeChar? 0

/-- `u32::from_str_radix(_, 16)`: a plus sign may stand before the digits. -/
def fromStrRadix : List UInt8 → Option Nat
  | [] => none
  | byte :: bytes =>
    if byte = 0x2B then if bytes = [] then none else Json.hexFrom 0 bytes
    else Json.hexFrom 0 (byte :: bytes)

/-- `char::from_u32`. -/
def charOf (code : Nat) : Char :=
  if code.isValidChar then Char.ofNat code else '\uFFFD'

def ws (rest : List UInt8) : List UInt8 := rest.dropWhile Json.isWs

/-- What one turn of the string loop finds: the closing quote, or a character. -/
inductive Piece where
  | done (rest : List UInt8)
  | char (c : Char) (rest : List UInt8)
  deriving DecidableEq, Repr

/-- The rest of an escape that named a high surrogate, with the cursor after its digits. -/
def lowEscape (code : Nat) (rest : List UInt8) : Except Stop Piece :=
  match get rest rest.length with
  | none => invalid "lone high surrogate"
  | some tail =>
    if [0x5C, 0x75].isPrefixOf tail then
      match get (rest.drop 2) 4 with
      | none => invalid "truncated low surrogate escape"
      | some lowHex =>
        match fromStrRadix lowHex with
        | none => invalid "malformed low surrogate escape"
        | some low =>
          if !Json.isLow low then invalid "high surrogate not followed by low surrogate"
          else .ok (.char (charOf (Json.combine code low)) (rest.drop 6))
    else invalid "lone high surrogate"

/-- A `\u` escape, with the cursor after the letter. -/
def unicodeEscape (after : List UInt8) : Except Stop Piece :=
  if after.length < 4 then invalid "truncated unicode escape"
  else do
    let hex ← slice after 4
    match fromStrRadix hex with
    | none => invalid "malformed unicode escape"
    | some code =>
      if Json.isHigh code then lowEscape code (after.drop 4)
      else if Json.isLow code then invalid "lone low surrogate"
      else .ok (.char (charOf code) (after.drop 4))

/-- An escape, with the cursor after the backslash. -/
def escape : List UInt8 → Except Stop Piece
  | [] => invalid "truncated escape"
  | escaped :: after =>
    if escaped = 0x75 then unicodeEscape after
    else
      match Json.shortEscape escaped with
      | some c => .ok (.char c after)
      | none => invalid "invalid escape"

/-- One turn of the string loop. -/
def piece : List UInt8 → Except Stop Piece
  | [] => invalid "unterminated string"
  | byte :: rest =>
    if byte = 0x22 then .ok (.done rest)
    else if byte ≠ 0x5C then
      if byte < 0x80 then .ok (.char (Char.ofNat byte.toNat) rest)
      else do
        let slice ← sliceFrom (byte :: rest)
        let next := (firstChar slice).getD '\uFFFD'
        .ok (.char next ((byte :: rest).drop next.utf8Size))
    else escape rest

/-- The string after its opening quote, and the cursor after its closing one. -/
def string : Nat → List UInt8 → Except Stop (List Char × List UInt8)
  | 0, _ => .error .exhausted
  | fuel + 1, rest => do
    match ← piece rest with
    | .done rest => .ok ([], rest)
    | .char c rest =>
      let (text, rest) ← string fuel rest
      .ok (c :: text, rest)

/-- The bytes at which the scanner stops skipping what it does not know. -/
def structural (byte : UInt8) : Bool :=
  byte == 0x2C || byte == 0x5D || byte == 0x7D || Json.isWs byte

def skip (rest : List UInt8) : List UInt8 := rest.dropWhile fun byte => !structural byte

/-- A literal, if the text at the cursor starts with it, and otherwise whatever is skipped. -/
def literal (lexeme rest : List UInt8) : Except Stop (List UInt8) := do
  let tail ← sliceFrom rest
  if lexeme.isPrefixOf tail then .ok (rest.drop lexeme.length) else .ok (skip rest)

mutual

/-- A value, behind whitespace. -/
def value : Nat → List UInt8 → Except Stop (List UInt8)
  | 0, _ => .error .exhausted
  | fuel + 1, rest =>
    match ws rest with
    | [] => invalid "truncated value"
    | byte :: rest =>
      if byte = 0x7B then
        match ws rest with
        | 0x7D :: rest => .ok rest
        | rest => members fuel [] rest
      else if byte = 0x5B then
        match ws rest with
        | 0x5D :: rest => .ok rest
        | rest => elements fuel rest
      else if byte = 0x22 then do
        let (_, rest) ← string (rest.length + 1) rest
        .ok rest
      else if byte = 0x74 then literal Json.trueLexeme (byte :: rest)
      else if byte = 0x66 then literal Json.falseLexeme (byte :: rest)
      else if byte = 0x6E then literal Json.nullLexeme (byte :: rest)
      else .ok (skip (byte :: rest))

/-- The elements of an array, and its closing bracket. -/
def elements : Nat → List UInt8 → Except Stop (List UInt8)
  | 0, _ => .error .exhausted
  | fuel + 1, rest => do
    let rest ← value fuel rest
    match ws rest with
    | [] => invalid "unterminated array"
    | next :: rest =>
      if next = 0x5D then .ok rest
      else if next ≠ 0x2C then invalid "expected ',' or ']'"
      else elements fuel rest

/-- The members of an object with keys already seen, and its closing bracket. -/
def members : Nat → List (List Char) → List UInt8 → Except Stop (List UInt8)
  | 0, _, _ => .error .exhausted
  | fuel + 1, seen, rest =>
    match ws rest with
    | 0x22 :: rest => do
      let (key, rest) ← string (rest.length + 1) rest
      if key ∈ seen then .error (duplicateKey key)
      else
        match ws rest with
        | 0x3A :: rest => do
          let rest ← value fuel rest
          match ws rest with
          | [] => invalid "unterminated object"
          | next :: rest =>
            if next = 0x7D then .ok rest
            else if next ≠ 0x2C then invalid "expected ',' or '\x7d'"
            else members fuel (key :: seen) rest
        | _ => invalid "expected ':' after an object key"
    | _ => invalid "expected an object key"

end

/-- The turns of the three loops a text of so many bytes can take. -/
def turns (len : Nat) : Nat := 2 * len + 2

def run (text : List UInt8) : Except Stop Unit := do
  let rest ← value (turns text.length) text
  if ws rest ≠ [] then invalid "trailing characters" else .ok ()

end Scanner

/-- The bytes of a string. -/
def bytesOf (input : String) : List UInt8 := Utf8.encode input.toList

def rejectDuplicates (input : String) : Except Stop Unit := Scanner.run (bytesOf input)

variable {φ : Type} (fromStr : String → Except String (Value φ))

def parseStrict (input : String) : Except Stop (Value φ) := do
  rejectDuplicates input
  match fromStr input with
  | .error error => invalid error
  | .ok value => .ok value

end SupraHarness.Llm
