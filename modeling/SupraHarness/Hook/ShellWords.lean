import SupraHarness.Lib.ShellQuoting
import SupraHarness.Lib.Str

/-!
# The words of a hook's command

A hook's command line is split into words symbol by symbol. The splitter takes an apostrophe between double quotes for
the beginning of a single-quoted stretch, takes every backslash away that is not in one, ends words at whatever counts
as whitespace, and has no word where no symbol came of one. So the words of a quoted line come back just where none of
this has a hold.
-/
namespace SupraHarness.Hook

open ShellQuoting
open Str (isWhitespace)
open Transducer (run run_append run_cons run_nil)

/-- The variables of `shell_words`. -/
structure Splitter where
  words : List Text
  current : Text
  quote : Option Char
  escaped : Bool
  deriving DecidableEq, Repr

/-- One round of the loop. -/
def Splitter.step (s : Splitter) (character : Char) : Splitter :=
  if s.escaped then { s with current := s.current ++ [character], escaped := false }
  else if character = '\\' ∧ s.quote ≠ some '\'' then { s with escaped := true }
  else if some character = s.quote then { s with quote := none }
  else if character = '\'' ∨ (character = '"' ∧ s.quote = none) then { s with quote := some character }
  else if isWhitespace character ∧ s.quote = none then
    if s.current ≠ [] then { s with words := s.words ++ [s.current], current := [] } else s
  else { s with current := s.current ++ [character] }

/-- Split a command line into words. -/
def shellWords (line : Text) : List Text :=
  let s := line.foldl Splitter.step ⟨[], [], none, false⟩
  if s.current ≠ [] then s.words ++ [s.current] else s.words

/-- The program of a hook and its arguments, if its command has any words. -/
def invocation (command : Text) : Option (Text × List Text) :=
  match shellWords command with
  | [] => none
  | program :: rest => some (program, rest)

/-! ## The splitter as a transducer -/

/-- What the splitter goes by: the open quote, whether a backslash stands before, and whether a word has begun. -/
structure Control where
  quote : Option Char
  escaped : Bool
  begun : Bool
  deriving DecidableEq, Repr

def write (s : Control) (c : Char) : Control × List Token :=
  if s.escaped then (⟨s.quote, false, true⟩, [some c])
  else if c = '\\' ∧ s.quote ≠ some '\'' then (⟨s.quote, true, s.begun⟩, [])
  else if some c = s.quote then (⟨none, false, s.begun⟩, [])
  else if c = '\'' ∨ (c = '"' ∧ s.quote = none) then (⟨some c, false, s.begun⟩, [])
  else if isWhitespace c ∧ s.quote = none then (⟨s.quote, false, false⟩, if s.begun then [none] else [])
  else (⟨s.quote, false, true⟩, [some c])

def Splitter.control (s : Splitter) : Control := ⟨s.quote, s.escaped, s.current ≠ []⟩

/-- What the splitter has written. -/
def Splitter.stream (s : Splitter) : List Token := tokens s.words ++ s.current.map some

theorem step_write (s : Splitter) (c : Char) :
    (s.step c).control = (write s.control c).1 ∧ (s.step c).stream = s.stream ++ (write s.control c).2 := by
  obtain ⟨words, current, quote, escaped⟩ := s
  rw [write]
  unfold Splitter.step Splitter.control Splitter.stream
  dsimp only
  split_ifs <;> simp_all [tokens]

theorem foldl_write (line : Text) (s : Splitter) : (line.foldl Splitter.step s).control = (run write s.control line).1 ∧
    (line.foldl Splitter.step s).stream = s.stream ++ (run write s.control line).2 := by
  induction line generalizing s with
  | nil => exact ⟨rfl, (List.append_nil _).symm⟩
  | cons c line ih =>
    obtain ⟨control, stream⟩ := step_write s c
    obtain ⟨control', stream'⟩ := ih (s.step c)
    rw [List.foldl_cons, run_cons, control', stream', control, stream, List.append_assoc]
    exact ⟨rfl, rfl⟩

def start : Control := ⟨none, false, false⟩

/-- The end of the line ends a word that has begun. -/
def Control.close (s : Control) : List Token := if s.begun then [none] else []

theorem tokens_shellWords (line : Text) :
    tokens (shellWords line) = (run write start line).2 ++ (run write start line).1.close := by
  obtain ⟨control, stream⟩ := foldl_write line ⟨[], [], none, false⟩
  have begun : (run write start line).1.begun = decide ((line.foldl Splitter.step ⟨[], [], none, false⟩).current ≠ []) :=
    congrArg Control.begun control.symm
  have written : (run write start line).2 = (line.foldl Splitter.step ⟨[], [], none, false⟩).stream := stream.symm
  rw [shellWords, Control.close, begun, written, Splitter.stream]
  split_ifs <;> simp_all [tokens]

theorem step_ne_nil {s : Splitter} (full : ∀ word ∈ s.words, word ≠ []) (c : Char) :
    ∀ word ∈ (s.step c).words, word ≠ [] := by
  rw [Splitter.step]
  split_ifs with _ _ _ _ _ some
  · exact full
  · exact full
  · exact full
  · exact full
  · exact List.forall_mem_append.2 ⟨full, List.forall_mem_singleton.2 some⟩
  · exact full
  · exact full

theorem foldl_ne_nil (line : Text) {s : Splitter} (full : ∀ word ∈ s.words, word ≠ []) :
    ∀ word ∈ (line.foldl Splitter.step s).words, word ≠ [] := by
  induction line generalizing s with
  | nil => exact full
  | cons c line ih => exact ih (step_ne_nil full c)

/-- The splitter has no empty words. -/
theorem ne_nil_of_mem_shellWords {line word : Text} (mem : word ∈ shellWords line) : word ≠ [] := by
  have full := foldl_ne_nil line (s := ⟨[], [], none, false⟩) (List.forall_mem_nil _)
  rw [shellWords] at mem
  split_ifs at mem with some
  · rcases List.mem_append.1 mem with inside | last
    · exact full word inside
    · rw [List.mem_singleton] at last
      exact last ▸ some
  · exact full word mem

/-! ## Out of step -/

/-- Whitespace that is no blank. -/
def isOdd (c : Char) : Bool := isWhitespace c && !isBlank c

/-- What the splitter may come to owe: it writes these no more often than the reader. -/
def isOwed (t : Token) : Bool := t.any fun c => c = '\'' || isOdd c

/-- What it never owes. -/
def isQuote (t : Token) : Bool := t = some '"'

/-- Where splitter and reader may stand once the splitter owes something. -/
inductive Behind : Control → Mode → Prop
  | outside {mode : Mode} {quote : Option Char} {begun : Bool} (outside : mode = .between ∨ mode = .bare)
      (open_ : quote = none ∨ quote = some '"') : Behind ⟨quote, false, begun⟩ mode
  | escaped {quote : Option Char} {begun : Bool} (open_ : quote = none ∨ quote = some '"') :
      Behind ⟨quote, true, begun⟩ .escaped
  | single {begun : Bool} : Behind ⟨some '\'', false, begun⟩ .single
  | double {quote : Option Char} {begun : Bool} (open_ : quote = none ∨ quote = some '"' ∨ quote = some '\'') :
      Behind ⟨quote, false, begun⟩ .double
  | doubleEscaped {quote : Option Char} {begun : Bool} (open_ : quote = none ∨ quote = some '"') :
      Behind ⟨quote, true, begun⟩ .doubleEscaped
  | doubleKept {begun : Bool} : Behind ⟨some '\'', false, begun⟩ .doubleEscaped

/-- One symbol leaves the splitter behind, or makes it write what it does not owe. -/
def Stays (s : Control × List Token) (t : Mode × List Token) : Prop :=
  s.2.length ≤ 1 ∧ ((∃ w ∈ s.2, isQuote w) ∨
    (Behind s.1 t.1 ∧ (∀ w ∈ t.2, ¬ isQuote w) ∧ s.2.countP isOwed ≤ t.2.countP isOwed))

section
variable {s : Control × List Token} {t : Mode × List Token}

theorem Stays.of_wrong (wrote : s.2 = [some '"']) : Stays s t := by
  refine ⟨by rw [wrote]; exact Nat.le_refl 1, .inl ⟨some '"', ?_, by decide⟩⟩
  rw [wrote]
  exact List.mem_singleton_self _

theorem Stays.of_same {c : Char} (wrote : s.2 = [some c]) (same : some c ∈ t.2) (clean : ∀ w ∈ t.2, ¬ isQuote w)
    (behind : Behind s.1 t.1) : Stays s t := by
  refine ⟨by rw [wrote]; exact Nat.le_refl 1, .inr ⟨behind, clean, ?_⟩⟩
  rw [wrote]
  exact (List.singleton_sublist.2 same).countP_le

theorem Stays.of_free (short : s.2.length ≤ 1) (free : s.2.countP isOwed = 0) (clean : ∀ w ∈ t.2, ¬ isQuote w)
    (behind : Behind s.1 t.1) : Stays s t :=
  ⟨short, .inr ⟨behind, clean, by omega⟩⟩

end

theorem not_isQuote {c : Char} (other : c ≠ '"') : ¬ isQuote (some c) := by
  simpa [isQuote] using other

theorem clean_singleton {c : Char} (other : c ≠ '"') : ∀ w ∈ [some c], ¬ isQuote w :=
  List.forall_mem_singleton.2 (not_isQuote other)

theorem white_of_isBlank {c : Char} (blank : isBlank c) : isWhitespace c = true := by
  rw [isBlank, Bool.or_eq_true, decide_eq_true_eq, decide_eq_true_eq] at blank
  rcases blank with rfl | rfl <;> rfl

/-- Whitespace outside quotes ends a word. -/
theorem write_white {c : Char} (white : isWhitespace c = true) (begun : Bool) :
    write ⟨none, false, begun⟩ c = (⟨none, false, false⟩, if begun then [none] else []) := by
  have backslash : c ≠ '\\' := fun equal => absurd white (by rw [equal]; decide)
  have apostrophe : c ≠ '\'' := fun equal => absurd white (by rw [equal]; decide)
  have double : c ≠ '"' := fun equal => absurd white (by rw [equal]; decide)
  simp [write, backslash, apostrophe, double, white]

theorem write_visible {c : Char} (backslash : c ≠ '\\') (apostrophe : c ≠ '\'') (double : c ≠ '"')
    (visible : ¬ isWhitespace c) (begun : Bool) : write ⟨none, false, begun⟩ c = (⟨none, false, true⟩, [some c]) := by
  simp [write, backslash, apostrophe, double, visible]

theorem write_double {c : Char} (backslash : c ≠ '\\') (apostrophe : c ≠ '\'') (double : c ≠ '"') (begun : Bool) :
    write ⟨some '"', false, begun⟩ c = (⟨some '"', false, true⟩, [some c]) := by
  simp [write, backslash, apostrophe, double]

theorem write_single {c : Char} (apostrophe : c ≠ '\'') (begun : Bool) :
    write ⟨some '\'', false, begun⟩ c = (⟨some '\'', false, true⟩, [some c]) := by
  simp [write, apostrophe]

/-- Where the splitter ends a word or nothing, it writes nothing that it may owe. -/
theorem Stays.of_white {c : Char} (white : isWhitespace c = true) {begun : Bool} {t : Mode × List Token}
    (clean : ∀ w ∈ t.2, ¬ isQuote w) (behind : Behind ⟨none, false, false⟩ t.1) :
    Stays (write ⟨none, false, begun⟩ c) t := by
  rw [write_white white]
  cases begun with
  | false => exact .of_free (Nat.zero_le _) rfl clean behind
  | true => exact .of_free (Nat.le_refl _) rfl clean behind

theorem behind_outside (c : Char) {mode : Mode} {quote : Option Char} {begun : Bool} {ended : List Token}
    (ends : ended = [] ∨ ended = [none]) (reads : readSymbol mode c = readBare ended c)
    (open_ : quote = none ∨ quote = some '"') : Stays (write ⟨quote, false, begun⟩ c) (readSymbol mode c) := by
  rw [reads]
  by_cases backslash : c = '\\'
  · subst backslash
    have wrote : write ⟨quote, false, begun⟩ '\\' = (⟨quote, true, begun⟩, []) := by
      rcases open_ with rfl | rfl <;> rfl
    rw [wrote]
    exact .of_free (Nat.zero_le _) rfl (List.forall_mem_nil _) (.escaped open_)
  by_cases apostrophe : c = '\''
  · subst apostrophe
    have wrote : write ⟨quote, false, begun⟩ '\'' = (⟨some '\'', false, begun⟩, []) := by
      rcases open_ with rfl | rfl <;> rfl
    rw [wrote]
    exact .of_free (Nat.zero_le _) rfl (List.forall_mem_nil _) .single
  by_cases double : c = '"'
  · subst double
    rcases open_ with rfl | rfl
    · exact .of_free (Nat.zero_le _) rfl (List.forall_mem_nil _) (.double (.inr (.inl rfl)))
    · exact .of_free (Nat.zero_le _) rfl (List.forall_mem_nil _) (.double (.inl rfl))
  by_cases blank : isBlank c
  · have clean : ∀ w ∈ ended, ¬ isQuote w := by
      rcases ends with rfl | rfl
      · exact List.forall_mem_nil _
      · exact List.forall_mem_singleton.2 (by decide)
    rw [readBare_blank blank]
    rcases open_ with rfl | rfl
    · exact .of_white (white_of_isBlank blank) clean (.outside (.inl rfl) (.inl rfl))
    · have free : [some c].countP isOwed = 0 := by
        simp [isOwed, isOdd, blank, apostrophe]
      rw [write_double backslash apostrophe double]
      exact .of_free (Nat.le_refl _) free clean (.outside (.inl rfl) (.inr rfl))
  · have bare : readBare ended c = (.bare, [some c]) := by
      rw [readBare, if_neg backslash, if_neg apostrophe, if_neg double, if_neg blank]
    rw [bare]
    rcases open_ with rfl | rfl
    · by_cases white : isWhitespace c
      · exact .of_white white (clean_singleton double) (.outside (.inr rfl) (.inl rfl))
      · rw [write_visible backslash apostrophe double white]
        exact .of_same rfl (List.mem_singleton_self _) (clean_singleton double) (.outside (.inr rfl) (.inl rfl))
    · rw [write_double backslash apostrophe double]
      exact .of_same rfl (List.mem_singleton_self _) (clean_singleton double) (.outside (.inr rfl) (.inr rfl))

theorem behind_double (c : Char) {quote : Option Char} {begun : Bool}
    (open_ : quote = none ∨ quote = some '"' ∨ quote = some '\'') :
    Stays (write ⟨quote, false, begun⟩ c) (readSymbol .double c) := by
  by_cases apostrophe : c = '\''
  · subst apostrophe
    have clean : ∀ w ∈ [some '\''], ¬ isQuote w := clean_singleton (by decide)
    rcases open_ with rfl | rfl | rfl
    · exact .of_free (Nat.zero_le _) rfl clean (.double (.inr (.inr rfl)))
    · exact .of_free (Nat.zero_le _) rfl clean (.double (.inr (.inr rfl)))
    · exact .of_free (Nat.zero_le _) rfl clean (.double (.inl rfl))
  by_cases double : c = '"'
  · subst double
    rcases open_ with rfl | rfl | rfl
    · exact .of_free (Nat.zero_le _) rfl (List.forall_mem_nil _) (.outside (.inr rfl) (.inr rfl))
    · exact .of_free (Nat.zero_le _) rfl (List.forall_mem_nil _) (.outside (.inr rfl) (.inl rfl))
    · exact .of_wrong rfl
  by_cases backslash : c = '\\'
  · subst backslash
    rcases open_ with rfl | rfl | rfl
    · exact .of_free (Nat.zero_le _) rfl (List.forall_mem_nil _) (.doubleEscaped (.inl rfl))
    · exact .of_free (Nat.zero_le _) rfl (List.forall_mem_nil _) (.doubleEscaped (.inr rfl))
    · exact .of_free (Nat.le_refl _) rfl (List.forall_mem_nil _) .doubleKept
  have reads : readSymbol .double c = (.double, [some c]) := by
    rw [readSymbol, if_neg double, if_neg backslash]
  rw [reads]
  rcases open_ with rfl | rfl | rfl
  · by_cases white : isWhitespace c
    · exact .of_white white (clean_singleton double) (.double (.inl rfl))
    · rw [write_visible backslash apostrophe double white]
      exact .of_same rfl (List.mem_singleton_self _) (clean_singleton double) (.double (.inl rfl))
  · rw [write_double backslash apostrophe double]
    exact .of_same rfl (List.mem_singleton_self _) (clean_singleton double) (.double (.inr (.inl rfl)))
  · rw [write_single apostrophe]
    exact .of_same rfl (List.mem_singleton_self _) (clean_singleton double) (.double (.inr (.inr rfl)))

/-- What is read behind a backslash between double quotes ends with the symbol. -/
theorem readSymbol_doubleEscaped {c : Char} (other : c ≠ '"') :
    some c ∈ (readSymbol .doubleEscaped c).2 ∧ ∀ w ∈ (readSymbol .doubleEscaped c).2, ¬ isQuote w := by
  rw [readSymbol]
  dsimp only
  split_ifs
  · exact ⟨List.mem_singleton_self _, clean_singleton other⟩
  · refine ⟨by simp, List.forall_mem_cons.2 ⟨by decide, clean_singleton other⟩⟩

/-- A symbol does not bring the splitter back. -/
theorem behind_step (c : Char) {s : Control} {mode : Mode} (h : Behind s mode) : Stays (write s c) (readSymbol mode c) := by
  cases h with
  | outside outside open_ =>
    rcases outside with rfl | rfl
    · exact behind_outside c (.inl rfl) rfl open_
    · exact behind_outside c (.inr rfl) rfl open_
  | escaped open_ =>
    by_cases double : c = '"'
    · exact .of_wrong (by rw [double]; rfl)
    · exact .of_same rfl (List.mem_singleton_self _) (clean_singleton double) (.outside (.inr rfl) open_)
  | single =>
    by_cases apostrophe : c = '\''
    · subst apostrophe
      exact .of_free (Nat.zero_le _) rfl (List.forall_mem_nil _) (.outside (.inr rfl) (.inl rfl))
    rw [write_single apostrophe, readSymbol, if_neg apostrophe]
    by_cases double : c = '"'
    · exact .of_wrong (by rw [double])
    · exact .of_same rfl (List.mem_singleton_self _) (clean_singleton double) .single
  | double open_ => exact behind_double c open_
  | doubleEscaped open_ =>
    by_cases double : c = '"'
    · exact .of_wrong (by rw [double]; rfl)
    · obtain ⟨same, clean⟩ := readSymbol_doubleEscaped double
      exact .of_same rfl same clean (.double (open_.imp_right .inl))
  | doubleKept =>
    by_cases double : c = '"'
    · exact .of_wrong (by rw [double]; rfl)
    obtain ⟨same, clean⟩ := readSymbol_doubleEscaped double
    by_cases apostrophe : c = '\''
    · subst apostrophe
      exact .of_free (Nat.zero_le _) rfl clean (.double (.inl rfl))
    · rw [write_single apostrophe]
      exact .of_same rfl same clean (.double (.inr (.inr rfl)))

/-- A splitter that owes something does not come to what the reader has written. -/
theorem behind_ne {s : Control} {mode : Mode} (h : Behind s mode) {pend : List Token} (clean : ∀ w ∈ pend, ¬ isQuote w)
    (owes : 0 < pend.countP isOwed) (rest : Text) (tail' : List Token) :
    (run write s rest).2 ++ (run write s rest).1.close ≠ pend ++ ((run readSymbol mode rest).2 ++ tail') := by
  refine Transducer.run_behind (fun c s mode => behind_step c) rest h clean owes ?_ tail'
  rw [Control.close]
  split_ifs <;> rfl

/-! ## In step -/

/-- What the splitter takes for what it means: there is no apostrophe and no backslash that means itself between double
quotes. -/
def InnerPlain : Inner → Prop
  | .literal c _ => c ≠ '\''
  | .escaped _ _ => True
  | .kept _ _ _ => False

/-- And no whitespace outside quotes. -/
def PiecePlain : Piece → Prop
  | .plain c _ => ¬ isWhitespace c
  | .escaped _ _ => True
  | .single _ _ => True
  | .double inside => ∀ inner ∈ inside, InnerPlain inner

/-- A word that the splitter has. -/
structure Plain (quoting : Quoting) : Prop where
  some : quoting.word ≠ []
  pieces : ∀ piece ∈ quoting.pieces, PiecePlain piece

theorem write_inner {inner : Inner} (plain : InnerPlain inner) (begun : Bool) :
    run write ⟨some '"', false, begun⟩ inner.written = (⟨some '"', false, true⟩, inner.meaning.map some) := by
  cases inner with
  | literal c special =>
    have double : c ≠ '"' := fun equal => special (by rw [equal]; rfl)
    have backslash : c ≠ '\\' := fun equal => special (by rw [equal]; rfl)
    rw [Inner.written, run_cons, write_double backslash plain double]
    rfl
  | escaped c special => rfl
  | kept c special goesOn => exact plain.elim

theorem write_inside {inside : List Inner} (plain : ∀ inner ∈ inside, InnerPlain inner) (begun : Bool) :
    run write ⟨some '"', false, begun⟩ (inside.flatMap Inner.written) =
      (⟨some '"', false, begun || inside.flatMap Inner.meaning ≠ []⟩, (inside.flatMap Inner.meaning).map some) := by
  induction inside generalizing begun with
  | nil => simp
  | cons inner inside ih =>
    obtain ⟨here, others⟩ := List.forall_mem_cons.1 plain
    rw [List.flatMap_cons, run_append, write_inner here, ih others, List.flatMap_cons, List.map_append]
    simp [inner.meaning_ne_nil]

theorem write_closed {inside : Text} (closed : '\'' ∉ inside) (begun : Bool) :
    run write ⟨some '\'', false, begun⟩ inside = (⟨some '\'', false, begun || inside ≠ []⟩, inside.map some) := by
  induction inside generalizing begun with
  | nil => simp
  | cons c inside ih =>
    obtain ⟨here, others⟩ := not_or.1 fun mem => closed (List.mem_cons.2 mem)
    rw [run_cons, write_single (Ne.symm here), ih others]
    simp

/-- A plain piece is written as what it means. -/
theorem write_piece {piece : Piece} (plain : PiecePlain piece) (begun : Bool) :
    run write ⟨none, false, begun⟩ piece.written =
      (⟨none, false, begun || piece.meaning ≠ []⟩, piece.meaning.map some) := by
  cases piece with
  | plain c operator =>
    have backslash : c ≠ '\\' := fun equal => operator.1 (by rw [equal]; rfl)
    have apostrophe : c ≠ '\'' := fun equal => operator.1 (by rw [equal]; rfl)
    have double : c ≠ '"' := fun equal => operator.1 (by rw [equal]; rfl)
    rw [Piece.written, run_cons, write_visible backslash apostrophe double plain]
    simp [Piece.meaning]
  | escaped c goesOn =>
    rw [Piece.written, run_cons, run_cons]
    simp [write, Piece.meaning]
  | single inside closed =>
    have opens : write ⟨none, false, begun⟩ '\'' = (⟨some '\'', false, begun⟩, []) := rfl
    rw [Piece.written, run_cons, opens, run_append, write_closed closed]
    cases inside <;> simp [write, Piece.meaning]
  | double inside =>
    have opens : write ⟨none, false, begun⟩ '"' = (⟨some '"', false, begun⟩, []) := rfl
    rw [Piece.written, run_cons, opens, run_append, write_inside plain]
    simp [write, Piece.meaning]

theorem write_pieces {pieces : List Piece} (plain : ∀ piece ∈ pieces, PiecePlain piece) (begun : Bool) :
    run write ⟨none, false, begun⟩ (pieces.flatMap Piece.written) =
      (⟨none, false, begun || pieces.flatMap Piece.meaning ≠ []⟩, (pieces.flatMap Piece.meaning).map some) := by
  induction pieces generalizing begun with
  | nil => simp
  | cons piece pieces ih =>
    obtain ⟨here, others⟩ := List.forall_mem_cons.1 plain
    rw [List.flatMap_cons, run_append, write_piece here, ih others, List.flatMap_cons, List.map_append]
    simp [Bool.or_assoc]

theorem write_blanks {blanks : Text} (blank : ∀ c ∈ blanks, isBlank c) : run write start blanks = (start, []) := by
  induction blanks with
  | nil => rfl
  | cons c blanks ih =>
    obtain ⟨here, others⟩ := List.forall_mem_cons.1 blank
    rw [run_cons, start, write_white (white_of_isBlank here), ← start, ih others]
    rfl

theorem write_gap (gap : Gap) : run write ⟨none, false, true⟩ gap.blanks = (start, [none]) := by
  obtain ⟨blanks, some, blank⟩ := gap
  cases blanks with
  | nil => exact absurd rfl some
  | cons c blanks =>
    obtain ⟨here, others⟩ := List.forall_mem_cons.1 blank
    dsimp only
    rw [run_cons, write_white (white_of_isBlank here), ← start, write_blanks others]
    rfl

/-! ## Out of step at a piece -/

/-- All that the splitter writes from a state on. -/
def written (s : Control) (rest : Text) : List Token := (run write s rest).2 ++ (run write s rest).1.close

theorem written_append {s s' : Control} {front rest : Text} {wrote : List Token} (h : run write s front = (s', wrote)) :
    written s (front ++ rest) = wrote ++ written s' rest := by
  rw [written, run_append, h, List.append_assoc]
  rfl

theorem written_cons (s : Control) (c : Char) (rest : Text) :
    written s (c :: rest) = (write s c).2 ++ written (write s c).1 rest := by
  rw [written, run_cons, List.append_assoc]
  rfl

/-- From an apostrophe or from a backslash that means itself between double quotes, the splitter does not come to what the
word means. -/
theorem inside_ne {inside : List Inner} (odd : ¬ ∀ inner ∈ inside, InnerPlain inner) (begun : Bool) (rest : Text)
    (tail' : List Token) : written ⟨some '"', false, begun⟩ (inside.flatMap Inner.written ++ '"' :: rest) ≠
      (inside.flatMap Inner.meaning).map some ++ ((run readSymbol .bare rest).2 ++ tail') := by
  induction inside generalizing begun with
  | nil => exact absurd (List.forall_mem_nil _) odd
  | cons inner inside ih =>
    rw [List.flatMap_cons, List.flatMap_cons, List.map_append, List.append_assoc, List.append_assoc]
    by_cases plain : InnerPlain inner
    · rw [written_append (write_inner plain begun)]
      refine fun equal => ih (fun others => odd (List.forall_mem_cons.2 ⟨plain, others⟩)) true ?_
      exact List.append_cancel_left equal
    · cases inner with
      | literal c special =>
        obtain rfl : c = '\'' := not_not.1 plain
        have reads : (run readSymbol .double (inside.flatMap Inner.written ++ '"' :: rest)).2 =
            (inside.flatMap Inner.meaning).map some ++ (run readSymbol .bare rest).2 := by
          rw [run_append, run_inside, run_cons]
          rfl
        have behind : Behind ⟨some '\'', false, begun⟩ .double := .double (.inr (.inr rfl))
        have never := behind_ne behind (clean_singleton (by decide)) (by decide : 0 < [some '\''].countP isOwed)
          (inside.flatMap Inner.written ++ '"' :: rest) tail'
        rw [reads, List.append_assoc] at never
        exact never
      | escaped c special => exact absurd trivial plain
      | kept c special goesOn =>
        rw [Inner.written, Inner.meaning, List.cons_append, List.cons_append, written_cons, written_cons]
        intro equal
        have same : some c = some '\\' := (List.cons.inj equal).1
        exact special (by rw [Option.some.inj same]; rfl)

theorem piece_ne {piece : Piece} (odd : ¬ PiecePlain piece) (begun : Bool) (rest : Text) (tail' : List Token) :
    written ⟨none, false, begun⟩ (piece.written ++ rest) ≠
      piece.meaning.map some ++ ((run readSymbol .bare rest).2 ++ tail') := by
  cases piece with
  | plain c operator =>
    have white : isWhitespace c = true := not_not.1 odd
    rw [Piece.written, List.singleton_append, written_cons, write_white white]
    cases begun with
    | true => exact fun equal => absurd (List.cons.inj equal).1 (Option.some_ne_none _).symm
    | false =>
      have double : c ≠ '"' := fun equal => operator.1 (by rw [equal]; rfl)
      have owes : 0 < [some c].countP isOwed := by
        simp [isOwed, isOdd, white, operator.2]
      exact behind_ne (.outside (.inr rfl) (.inl rfl)) (clean_singleton double) owes rest tail'
  | escaped c goesOn => exact absurd trivial odd
  | single inside closed => exact absurd trivial odd
  | double inside =>
    rw [Piece.written, List.cons_append, List.append_assoc, written_cons]
    exact inside_ne odd begun rest tail'

theorem pieces_ne {pieces : List Piece} (odd : ¬ ∀ piece ∈ pieces, PiecePlain piece) (begun : Bool) (rest : Text)
    (tail' : List Token) : written ⟨none, false, begun⟩ (pieces.flatMap Piece.written ++ rest) ≠
      (pieces.flatMap Piece.meaning).map some ++ ((run readSymbol .bare rest).2 ++ tail') := by
  induction pieces generalizing begun with
  | nil => exact absurd (List.forall_mem_nil _) odd
  | cons piece pieces ih =>
    rw [List.flatMap_cons, List.flatMap_cons, List.map_append, List.append_assoc, List.append_assoc]
    by_cases plain : PiecePlain piece
    · rw [written_append (write_piece plain begun)]
      refine fun equal => ih (fun others => odd (List.forall_mem_cons.2 ⟨plain, others⟩)) (begun || piece.meaning ≠ []) ?_
      exact List.append_cancel_left equal
    · have never := piece_ne plain begun (pieces.flatMap Piece.written ++ rest) tail'
      rw [run_append, run_pieces, List.append_assoc] at never
      exact never

/-- What the splitter writes of a word, and where it does not come to the word. -/
theorem written_word {quoting : Quoting} (full : quoting.word ≠ []) (rest : Text) (tail' : List Token)
    {after : List Token} (reads : (run readSymbol .bare rest).2 ++ tail' = after) :
    written start (quoting.written ++ rest) = quoting.word.map some ++ after ↔
      (∀ piece ∈ quoting.pieces, PiecePlain piece) ∧ written ⟨none, false, true⟩ rest = after := by
  by_cases plain : ∀ piece ∈ quoting.pieces, PiecePlain piece
  · have wrote : run write start quoting.written = (⟨none, false, true⟩, quoting.word.map some) := by
      rw [Quoting.written, start, write_pieces plain, ← Quoting.word, Bool.false_or, decide_eq_true full]
    rw [written_append wrote, List.append_cancel_left_eq, and_iff_right plain]
  · refine ⟨fun equal => absurd equal ?_, fun both => absurd both.1 plain⟩
    rw [← reads]
    exact pieces_ne plain false rest tail'

/-- The splitter writes the words of a line, none of them empty, just where their pieces are plain. -/
theorem written_line (words : List (Quoting × Gap)) (full : ∀ word ∈ words, word.1.word ≠ []) :
    written start (line words) = tokens (words.map (·.1.word)) ↔
      ∀ word ∈ words, ∀ piece ∈ word.1.pieces, PiecePlain piece := by
  induction words with
  | nil => exact ⟨fun _ => List.forall_mem_nil _, fun _ => rfl⟩
  | cons first rest ih =>
    obtain ⟨quoting, gap⟩ := first
    obtain ⟨here, others⟩ := List.forall_mem_cons.1 full
    rw [List.map_cons, tokens_cons, List.forall_mem_cons]
    cases rest with
    | nil =>
      have reads : (run readSymbol .bare []).2 ++ [none] = [none] := rfl
      have wrote := written_word here [] [none] reads
      rw [List.append_nil] at wrote
      exact wrote.trans (and_congr_right fun _ => ⟨fun _ => List.forall_mem_nil _, fun _ => rfl⟩)
    | cons second rest =>
      have reads : (run readSymbol .bare (gap.blanks ++ line (second :: rest))).2 ++
          close (run readSymbol .between (line (second :: rest))).1 = none :: tokens ((second :: rest).map (·.1.word)) := by
        rw [← run_line, run_append, run_gap, List.append_assoc]
        rfl
      rw [line, written_word here _ _ reads, written_append (write_gap gap), List.singleton_append, List.cons.injEq,
        and_iff_right rfl, ih others]
      rintro ⟨⟩

/-- The words of a quoted line come back just where the splitter has each of them. -/
theorem shellWords_iff (words : List (Quoting × Gap)) :
    shellWords (line words) = words.map (·.1.word) ↔ ∀ word ∈ words, Plain word.1 := by
  constructor
  · intro equal
    have full : ∀ word ∈ words, word.1.word ≠ [] := by
      intro word mem
      have inside : word.1.word ∈ shellWords (line words) := equal ▸ List.mem_map_of_mem mem
      exact ne_nil_of_mem_shellWords inside
    have wrote := tokens_shellWords (line words)
    rw [equal] at wrote
    have plain := (written_line words full).1 wrote.symm
    exact fun word mem => ⟨full word mem, plain word mem⟩
  · intro plain
    have wrote := (written_line words fun word mem => (plain word mem).some).2 fun word mem => (plain word mem).pieces
    exact tokens_injective ((tokens_shellWords (line words)).trans wrote)

/-- The program of a hook is the first word that was quoted and its arguments are the others, where the splitter has each
of them. -/
theorem invocation_line {first : Quoting × Gap} {rest : List (Quoting × Gap)} (plain : ∀ word ∈ first :: rest, Plain word.1) :
    invocation (line (first :: rest)) = some (first.1.word, rest.map (·.1.word)) := by
  rw [invocation, (shellWords_iff (first :: rest)).2 plain]
  rfl

def oneBlank : Gap := ⟨[' '], List.cons_ne_nil _ _, by decide⟩

def apostrophe : Quoting := ⟨[.double [.literal 'a' (by decide), .literal '\'' (by decide)]], List.cons_ne_nil _ _⟩

def nothing : Quoting := ⟨[.single [] List.not_mem_nil], List.cons_ne_nil _ _⟩

def backslash : Quoting := ⟨[.double [.kept 'a' (by decide) (by decide)]], List.cons_ne_nil _ _⟩

def noBreak : Quoting :=
  ⟨[.plain 'a' (by decide), .plain '\u00A0' (by decide), .plain 'b' (by decide)], List.cons_ne_nil _ _⟩

/-- An apostrophe between double quotes, an empty word, a backslash that means itself, and whitespace that is no blank: each
changes the words. -/
theorem shellWords_differs :
    (line [(apostrophe, oneBlank)] = ['"', 'a', '\'', '"'] ∧ apostrophe.word = ['a', '\''] ∧
      shellWords ['"', 'a', '\'', '"'] = [['a', '"']]) ∧
    (line [(nothing, oneBlank)] = ['\'', '\''] ∧ nothing.word = [] ∧ shellWords ['\'', '\''] = []) ∧
    (line [(backslash, oneBlank)] = ['"', '\\', 'a', '"'] ∧ backslash.word = ['\\', 'a'] ∧
      shellWords ['"', '\\', 'a', '"'] = [['a']]) ∧
    (line [(noBreak, oneBlank)] = ['a', '\u00A0', 'b'] ∧ noBreak.word = ['a', '\u00A0', 'b'] ∧
      shellWords ['a', '\u00A0', 'b'] = [['a'], ['b']]) := by
  decide

end SupraHarness.Hook
