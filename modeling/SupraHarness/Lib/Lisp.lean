import SupraHarness.Lib.Transducer

/-!
# Parenthesised expressions

Words, strings and lists of them as text. A reader cuts the text into tokens and the tokens into expressions. A string
stands between double quotes; in it a backslash escapes a quote, a backslash, a line feed, a return or a tab, or stands
in front of the three octal digits of a byte.
-/
namespace SupraHarness.Lisp

open Transducer

abbrev Text := List UInt8

inductive Expr where
  | word (name : Text)
  | string (bytes : Text)
  | list (items : List Expr)
  deriving Repr

inductive Token where
  | opening | closing
  | word (name : Text)
  | string (bytes : Text)
  deriving DecidableEq, Repr

/-! ## Tokens -/

/-- Where the lexer stands; an octal escape has a value so far and a number of digits to come. -/
inductive Lexer where
  | between
  | word (name : Text)
  | string (bytes : Text)
  | escape (bytes : Text)
  | octal (bytes : Text) (value left : Nat)
  | broken
  deriving DecidableEq, Repr

def isSpace (c : UInt8) : Bool := c = 0x20 || c = 0x09 || c = 0x0A || c = 0x0D

/-- The byte that an escape of one character stands for. -/
def escapedByte (c : UInt8) : Option UInt8 :=
  if c = 0x22 ∨ c = 0x5C then some c
  else if c = 0x6E then some 0x0A
  else if c = 0x72 then some 0x0D
  else if c = 0x74 then some 0x09
  else none

def octalDigit (c : UInt8) : Option Nat := if 0x30 ≤ c ∧ c ≤ 0x37 then some (c.toNat - 0x30) else none

/-- A byte outside strings, behind the tokens of a word that it ends. -/
def stepOutside (ended : List Token) (name : Text) (c : UInt8) : Lexer × List Token :=
  if isSpace c then (.between, ended)
  else if c = 0x28 then (.between, ended ++ [.opening])
  else if c = 0x29 then (.between, ended ++ [.closing])
  else if c = 0x22 then (.string [], ended)
  else (.word (name ++ [c]), [])

def step : Lexer → UInt8 → Lexer × List Token
  | .between, c => stepOutside [] [] c
  | .word name, c => stepOutside [.word name] name c
  | .string bytes, c =>
    if c = 0x22 then (.between, [.string bytes])
    else if c = 0x5C then (.escape bytes, [])
    else (.string (bytes ++ [c]), [])
  | .escape bytes, c =>
    match escapedByte c, octalDigit c with
    | some byte, _ => (.string (bytes ++ [byte]), [])
    | none, some digit => (.octal bytes digit 2, [])
    | none, none => (.broken, [])
  | .octal bytes value left, c =>
    match octalDigit c with
    | none => (.broken, [])
    | some digit =>
      let value := value * 8 + digit
      if left ≠ 1 then (.octal bytes value (left - 1), [])
      else if value < 256 then (.string (bytes ++ [UInt8.ofNat value]), [])
      else (.broken, [])
  | .broken, _ => (.broken, [])

def lex (text : Text) : Option (List Token) :=
  match run step .between text with
  | (.between, tokens) => some tokens
  | (.word name, tokens) => some (tokens ++ [.word name])
  | _ => none

/-! ## Expressions -/

/-- Read tokens, with the items of the innermost open list and those of the lists around it. -/
def readTokens : List Expr → List (List Expr) → List Token → Option (List Expr)
  | items, [], [] => some items
  | _, _ :: _, [] => none
  | items, outer, .opening :: tokens => readTokens [] (items :: outer) tokens
  | items, around :: outer, .closing :: tokens => readTokens (around ++ [.list items]) outer tokens
  | _, [], .closing :: _ => none
  | items, outer, .word name :: tokens => readTokens (items ++ [.word name]) outer tokens
  | items, outer, .string bytes :: tokens => readTokens (items ++ [.string bytes]) outer tokens

/-- Read a text as a list of expressions. -/
def parse (text : Text) : Option (List Expr) := (lex text).bind (readTokens [] [])

mutual
def Expr.tokens : Expr → List Token
  | .word name => [.word name]
  | .string bytes => [.string bytes]
  | .list items => .opening :: (tokensAll items ++ [.closing])

def tokensAll : List Expr → List Token
  | [] => []
  | item :: items => item.tokens ++ tokensAll items
end

theorem tokensAll_cons (item : Expr) (items : List Expr) : tokensAll (item :: items) = item.tokens ++ tokensAll items := rfl

theorem tokens_list (items : List Expr) : (Expr.list items).tokens = .opening :: (tokensAll items ++ [.closing]) := rfl

mutual
theorem readTokens_tokens (item : Expr) (items : List Expr) (outer : List (List Expr)) (tokens : List Token) :
    readTokens items outer (item.tokens ++ tokens) = readTokens (items ++ [item]) outer tokens := by
  cases item with
  | word name =>
    cases outer <;> rfl
  | string bytes =>
    cases outer <;> rfl
  | list inner =>
    rw [tokens_list, List.cons_append, readTokens, List.append_assoc, readTokens_tokensAll, List.nil_append,
      List.singleton_append, readTokens]

theorem readTokens_tokensAll (inner items : List Expr) (outer : List (List Expr)) (tokens : List Token) :
    readTokens items outer (tokensAll inner ++ tokens) = readTokens (items ++ inner) outer tokens := by
  cases inner with
  | nil => exact congrArg (readTokens · outer tokens) (List.append_nil items).symm
  | cons item inner =>
    rw [tokensAll_cons, List.append_assoc, readTokens_tokens, readTokens_tokensAll, List.append_assoc, List.singleton_append]
end

theorem tokensAll_append (front back : List Expr) : tokensAll (front ++ back) = tokensAll front ++ tokensAll back := by
  induction front with
  | nil => rfl
  | cons item front ih => rw [List.cons_append, tokensAll_cons, tokensAll_cons, ih, List.append_assoc]

/-! ## Texts -/

/-- A text that takes the lexer from one place to another and writes some tokens. -/
def Lexes (start : Lexer) (text : Text) (stop : Lexer) (tokens : List Token) : Prop :=
  run step start text = (stop, tokens)

instance (start : Lexer) (text : Text) (stop : Lexer) (tokens : List Token) : Decidable (Lexes start text stop tokens) :=
  inferInstanceAs (Decidable (run step start text = (stop, tokens)))

theorem Lexes.append {first second third : Lexer} {text text' : Text} {tokens tokens' : List Token}
    (h : Lexes first text second tokens) (h' : Lexes second text' third tokens') :
    Lexes first (text ++ text') third (tokens ++ tokens') := by
  rw [Lexes] at h h' ⊢
  rw [run_append, h, h']

/-- Whole expressions as text, from between expressions to between expressions. -/
def Writes (text : Text) (items : List Expr) : Prop := Lexes .between text .between (tokensAll items)

theorem Writes.nil : Writes [] [] := rfl

theorem Writes.append {text text' : Text} {items items' : List Expr} (h : Writes text items) (h' : Writes text' items') :
    Writes (text ++ text') (items ++ items') := by
  rw [Writes, tokensAll_append]
  exact Lexes.append h h'

theorem Writes.flatMap {ι : Type*} {text : ι → Text} {items : ι → List Expr} {parts : List ι}
    (h : ∀ part ∈ parts, Writes (text part) (items part)) : Writes (parts.flatMap text) (parts.flatMap items) := by
  induction parts with
  | nil => exact .nil
  | cons part parts ih =>
    rw [List.forall_mem_cons] at h
    exact h.1.append (ih h.2)

/-- Expressions that were written are read. -/
theorem Writes.parse {text : Text} {items : List Expr} (h : Writes text items) : parse text = some items := by
  rw [Writes, Lexes] at h
  have tokens := readTokens_tokensAll items [] [] []
  rw [List.append_nil, List.nil_append] at tokens
  rw [Lisp.parse, lex, h]
  exact tokens

/-! ## Strings -/

/-- A text that stands for one byte in a string. -/
def Spells (text : Text) (byte : UInt8) : Prop := ∀ bytes, Lexes (.string bytes) text (.string (bytes ++ [byte])) []

theorem step_string (bytes : Text) (c : UInt8) :
    step (.string bytes) c =
      if c = 0x22 then (.between, [.string bytes])
      else if c = 0x5C then (.escape bytes, [])
      else (.string (bytes ++ [c]), []) := rfl

theorem step_escape {c byte : UInt8} (bytes : Text) (h : escapedByte c = some byte) :
    step (.escape bytes) c = (.string (bytes ++ [byte]), []) := by
  rw [step, h]

theorem spells_self {c : UInt8} (hq : c ≠ 0x22) (hs : c ≠ 0x5C) : Spells [c] c := by
  intro bytes
  rw [Lexes, run_cons, step_string, if_neg hq, if_neg hs]
  rfl

theorem spells_escape {c byte : UInt8} (h : escapedByte c = some byte) : Spells [0x5C, c] byte := by
  intro bytes
  rw [Lexes, run_cons, step_string, if_neg (by decide), if_pos rfl, run_cons, step_escape bytes h]
  rfl

/-- A backslash and the three octal digits of a byte. -/
def octalEscape (byte : UInt8) : Text :=
  [0x5C, UInt8.ofNat (0x30 + byte.toNat / 64), UInt8.ofNat (0x30 + byte.toNat / 8 % 8),
    UInt8.ofNat (0x30 + byte.toNat % 8)]

theorem octalDigit_ofNat {n : Nat} (h : n < 8) : octalDigit (UInt8.ofNat (0x30 + n)) = some n := by
  have all : ∀ n : Fin 8, octalDigit (UInt8.ofNat (0x30 + n.val)) = some n.val := by decide
  exact all ⟨n, h⟩

theorem escapedByte_digit {n : Nat} (h : n < 8) : escapedByte (UInt8.ofNat (0x30 + n)) = none := by
  have all : ∀ n : Fin 8, escapedByte (UInt8.ofNat (0x30 + n.val)) = none := by decide
  exact all ⟨n, h⟩

theorem step_backslash (bytes : Text) : step (.string bytes) 0x5C = (.escape bytes, []) := rfl

theorem step_firstDigit (bytes : Text) {n : Nat} (h : n < 8) :
    step (.escape bytes) (UInt8.ofNat (0x30 + n)) = (.octal bytes n 2, []) := by
  rw [step, escapedByte_digit h, octalDigit_ofNat h]

theorem step_secondDigit (bytes : Text) (value : Nat) {n : Nat} (h : n < 8) :
    step (.octal bytes value 2) (UInt8.ofNat (0x30 + n)) = (.octal bytes (value * 8 + n) 1, []) := by
  rw [step, octalDigit_ofNat h]
  rfl

theorem step_thirdDigit (bytes : Text) (value : Nat) {n : Nat} (h : n < 8) (small : value * 8 + n < 256) :
    step (.octal bytes value 1) (UInt8.ofNat (0x30 + n)) = (.string (bytes ++ [UInt8.ofNat (value * 8 + n)]), []) := by
  rw [step, octalDigit_ofNat h]
  dsimp only
  rw [if_neg (by decide), if_pos small]

theorem spells_octal (byte : UInt8) : Spells (octalEscape byte) byte := by
  intro bytes
  have lt := byte.toNat_lt
  have whole : (byte.toNat / 64 * 8 + byte.toNat / 8 % 8) * 8 + byte.toNat % 8 = byte.toNat := by omega
  rw [Lexes, octalEscape, run_cons, step_backslash, run_cons, step_firstDigit _ (by omega), run_cons,
    step_secondDigit _ _ (by omega), run_cons, step_thirdDigit _ _ (by omega) (by omega), whole, UInt8.ofNat_toNat]
  rfl

/-- A string that is spelled byte by byte. -/
theorem lexes_spelled {spell : UInt8 → Text} (h : ∀ c, Spells (spell c) c) (path bytes : Text) :
    Lexes (.string bytes) (path.flatMap spell) (.string (bytes ++ path)) [] := by
  induction path generalizing bytes with
  | nil =>
    rw [List.append_nil]
    rfl
  | cons c path ih =>
    have both := Lexes.append (h c bytes) (ih (bytes ++ [c]))
    rwa [List.append_assoc, List.singleton_append] at both

end SupraHarness.Lisp
