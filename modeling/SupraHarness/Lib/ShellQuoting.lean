import SupraHarness.Lib.Transducer

/-!
# Quoting words for a shell

A word is written in pieces: plain symbols, symbols behind a backslash, and stretches between single or double quotes.
Between double quotes a backslash is taken away only before a dollar sign, a backquote, a double quote or a backslash, and
stands for itself before any other symbol. The reader of a line is a transducer that writes the symbols of the words and
an end behind each of them.
-/
namespace SupraHarness.ShellQuoting

open Transducer (run run_append run_cons run_nil)

abbrev Text := List Char

/-- A symbol of a word, or the end of the word. -/
abbrev Token := Option Char

def isBlank (c : Char) : Bool := c = ' ' || c = '\t'

/-- What a backslash between double quotes is taken away before. -/
def isSpecial (c : Char) : Bool := c = '$' || c = '`' || c = '"' || c = '\\'

/-- What has to be quoted wherever it stands. -/
def isOperator (c : Char) : Bool := c ∈ ['|', '&', ';', '<', '>', '(', ')', '$', '`', '\\', '"', '\'', '\n']

/-- A symbol between double quotes. -/
inductive Inner where
  | literal (c : Char) (plain : ¬ isSpecial c)
  | escaped (c : Char) (special : isSpecial c)
  | kept (c : Char) (plain : ¬ isSpecial c) (goesOn : c ≠ '\n')

inductive Piece where
  | plain (c : Char) (plain : ¬ isOperator c ∧ ¬ isBlank c)
  | escaped (c : Char) (goesOn : c ≠ '\n')
  | single (inside : Text) (closed : '\'' ∉ inside)
  | double (inside : List Inner)

def Inner.written : Inner → Text
  | .literal c _ => [c]
  | .escaped c _ => ['\\', c]
  | .kept c _ _ => ['\\', c]

def Inner.meaning : Inner → Text
  | .literal c _ => [c]
  | .escaped c _ => [c]
  | .kept c _ _ => ['\\', c]

def Piece.written : Piece → Text
  | .plain c _ => [c]
  | .escaped c _ => ['\\', c]
  | .single inside _ => '\'' :: (inside ++ ['\''])
  | .double inside => '"' :: (inside.flatMap Inner.written ++ ['"'])

def Piece.meaning : Piece → Text
  | .plain c _ => [c]
  | .escaped c _ => [c]
  | .single inside _ => inside
  | .double inside => inside.flatMap Inner.meaning

/-- A word as it is written: there is something of it, though the word may be empty. -/
structure Quoting where
  pieces : List Piece
  some : pieces ≠ []

def Quoting.written (quoting : Quoting) : Text := quoting.pieces.flatMap Piece.written

def Quoting.word (quoting : Quoting) : Text := quoting.pieces.flatMap Piece.meaning

/-- The blanks between two words. -/
structure Gap where
  blanks : Text
  some : blanks ≠ []
  blank : ∀ c ∈ blanks, isBlank c

/-- The words of a line, each with the gap behind it if another one follows. -/
def line : List (Quoting × Gap) → Text
  | [] => []
  | [(quoting, _)] => quoting.written
  | (quoting, gap) :: rest => quoting.written ++ (gap.blanks ++ line rest)

/-! ## The reader -/

inductive Mode where
  | between
  | bare
  | escaped
  | single
  | double
  | doubleEscaped
  deriving DecidableEq, Repr

/-- One symbol outside quotes. -/
def readBare (ended : List Token) (c : Char) : Mode × List Token :=
  if c = '\\' then (.escaped, [])
  else if c = '\'' then (.single, [])
  else if c = '"' then (.double, [])
  else if isBlank c then (.between, ended)
  else (.bare, [some c])

def readSymbol : Mode → Char → Mode × List Token
  | .between, c => readBare [] c
  | .bare, c => readBare [none] c
  | .escaped, c => (.bare, [some c])
  | .single, c => if c = '\'' then (.bare, []) else (.single, [some c])
  | .double, c =>
    if c = '"' then (.bare, []) else if c = '\\' then (.doubleEscaped, []) else (.double, [some c])
  | .doubleEscaped, c => (.double, if isSpecial c then [some c] else [some '\\', some c])

/-- The end of the line ends a word. -/
def close : Mode → List Token
  | .between => []
  | _ => [none]

/-- The words as the reader writes them. -/
def tokens (words : List Text) : List Token := words.flatMap fun word => word.map some ++ [none]

theorem tokens_cons (word : Text) (words : List Text) : tokens (word :: words) = word.map some ++ none :: tokens words := by
  rw [tokens, List.flatMap_cons, List.append_assoc]
  rfl

theorem ended_inj {word word' : Text} {rest rest' : List Token}
    (h : word.map some ++ none :: rest = word'.map some ++ none :: rest') : word = word' ∧ rest = rest' := by
  induction word generalizing word' with
  | nil =>
    cases word' with
    | nil => exact ⟨rfl, (List.cons.inj h).2⟩
    | cons c word' => cases (List.cons.inj h).1
  | cons c word ih =>
    cases word' with
    | nil => cases (List.cons.inj h).1
    | cons c' word' =>
      obtain ⟨same, others⟩ := List.cons.inj h
      obtain ⟨rfl, equal⟩ := ih others
      rw [Option.some.inj same]
      exact ⟨rfl, equal⟩

/-- The words are read off what is written of them. -/
theorem tokens_injective {words words' : List Text} (h : tokens words = tokens words') : words = words' := by
  induction words generalizing words' with
  | nil =>
    cases words' with
    | nil => rfl
    | cons word' words' =>
      rw [tokens_cons] at h
      exact absurd h.symm (by simp [tokens])
  | cons word words ih =>
    cases words' with
    | nil =>
      rw [tokens_cons] at h
      exact absurd h (by simp [tokens])
    | cons word' words' =>
      rw [tokens_cons, tokens_cons] at h
      obtain ⟨rfl, others⟩ := ended_inj h
      rw [ih others]

theorem Inner.meaning_ne_nil (inner : Inner) : inner.meaning ≠ [] := by
  cases inner <;> exact List.cons_ne_nil _ _

theorem run_single {inside : Text} (closed : '\'' ∉ inside) : run readSymbol .single inside = (.single, inside.map some) := by
  induction inside with
  | nil => rfl
  | cons c inside ih =>
    obtain ⟨here, others⟩ := not_or.1 fun mem => closed (List.mem_cons.2 mem)
    rw [run_cons, readSymbol, if_neg (Ne.symm here), ih others]
    rfl

theorem run_inner (inner : Inner) : run readSymbol .double inner.written = (.double, inner.meaning.map some) := by
  cases inner with
  | literal c plain =>
    have quote : c ≠ '"' := fun equal => plain (by rw [equal]; rfl)
    have backslash : c ≠ '\\' := fun equal => plain (by rw [equal]; rfl)
    rw [Inner.written, run_cons, readSymbol, if_neg quote, if_neg backslash]
    rfl
  | escaped c special =>
    rw [Inner.written, run_cons, run_cons]
    simp [readSymbol, special, Inner.meaning]
  | kept c plain goesOn =>
    rw [Inner.written, run_cons, run_cons]
    simp [readSymbol, plain, Inner.meaning]

theorem run_inside (inside : List Inner) :
    run readSymbol .double (inside.flatMap Inner.written) = (.double, (inside.flatMap Inner.meaning).map some) := by
  induction inside with
  | nil => rfl
  | cons inner inside ih =>
    rw [List.flatMap_cons, run_append, run_inner, ih, List.flatMap_cons, List.map_append]

/-- A piece is read as what it means, wherever outside quotes it stands. -/
theorem run_piece (piece : Piece) {mode : Mode} (outside : mode = .between ∨ mode = .bare) :
    run readSymbol mode piece.written = (.bare, piece.meaning.map some) := by
  have bare : ∃ ended, readSymbol mode = readBare ended := by
    rcases outside with rfl | rfl
    · exact ⟨[], rfl⟩
    · exact ⟨[none], rfl⟩
  obtain ⟨ended, reads⟩ := bare
  cases piece with
  | plain c plain =>
    obtain ⟨operator, blank⟩ := plain
    have backslash : c ≠ '\\' := fun equal => operator (by rw [equal]; rfl)
    have apostrophe : c ≠ '\'' := fun equal => operator (by rw [equal]; rfl)
    have quote : c ≠ '"' := fun equal => operator (by rw [equal]; rfl)
    rw [Piece.written, run_cons, reads, readBare, if_neg backslash, if_neg apostrophe, if_neg quote, if_neg blank]
    rfl
  | escaped c goesOn =>
    rw [Piece.written, run_cons, reads]
    rfl
  | single inside closed =>
    rw [Piece.written, run_cons, reads, run_append]
    rw [show (readBare ended '\'').1 = .single from rfl, run_single closed]
    simp [readBare, readSymbol, Piece.meaning]
  | double inside =>
    rw [Piece.written, run_cons, reads, run_append]
    rw [show (readBare ended '"').1 = .double from rfl, run_inside]
    simp [readBare, readSymbol, Piece.meaning]

theorem run_pieces (pieces : List Piece) :
    run readSymbol .bare (pieces.flatMap Piece.written) = (.bare, (pieces.flatMap Piece.meaning).map some) := by
  induction pieces with
  | nil => rfl
  | cons piece pieces ih =>
    rw [List.flatMap_cons, run_append, run_piece piece (.inr rfl), ih, List.flatMap_cons, List.map_append]

theorem run_word (quoting : Quoting) : run readSymbol .between quoting.written = (.bare, quoting.word.map some) := by
  obtain ⟨pieces, some⟩ := quoting
  cases pieces with
  | nil => exact absurd rfl some
  | cons piece pieces =>
    rw [Quoting.written, List.flatMap_cons, run_append, run_piece piece (.inl rfl), run_pieces, Quoting.word,
      List.flatMap_cons, List.map_append]

theorem readBare_blank {c : Char} (blank : isBlank c) (ended : List Token) : readBare ended c = (.between, ended) := by
  have backslash : c ≠ '\\' := fun equal => absurd blank (by rw [equal]; decide)
  have apostrophe : c ≠ '\'' := fun equal => absurd blank (by rw [equal]; decide)
  have quote : c ≠ '"' := fun equal => absurd blank (by rw [equal]; decide)
  rw [readBare, if_neg backslash, if_neg apostrophe, if_neg quote, if_pos blank]

theorem run_blanks {blanks : Text} (blank : ∀ c ∈ blanks, isBlank c) : run readSymbol .between blanks = (.between, []) := by
  induction blanks with
  | nil => rfl
  | cons c blanks ih =>
    obtain ⟨here, others⟩ := List.forall_mem_cons.1 blank
    rw [run_cons, readSymbol, readBare_blank here, ih others]
    rfl

/-- A gap ends a word. -/
theorem run_gap (gap : Gap) : run readSymbol .bare gap.blanks = (.between, [none]) := by
  obtain ⟨blanks, some, blank⟩ := gap
  cases blanks with
  | nil => exact absurd rfl some
  | cons c blanks =>
    obtain ⟨here, others⟩ := List.forall_mem_cons.1 blank
    dsimp only
    rw [run_cons, readSymbol, readBare_blank here, run_blanks others]
    rfl

/-- The reader writes the words of a line. -/
theorem run_line (words : List (Quoting × Gap)) :
    (run readSymbol .between (line words)).2 ++ close (run readSymbol .between (line words)).1 = tokens (words.map (·.1.word)) := by
  induction words with
  | nil => rfl
  | cons first rest ih =>
    obtain ⟨quoting, gap⟩ := first
    cases rest with
    | nil =>
      rw [line, run_word]
      simp [close, tokens]
    | cons second rest =>
      rw [line, run_append, run_word, run_append, run_gap]
      · dsimp only
        rw [List.map_cons, tokens, List.flatMap_cons, ← tokens, ← ih]
        simp
      · nofun

end SupraHarness.ShellQuoting
