import Mathlib.Data.List.Basic

/-!
# The query of the lexical lane

Free text becomes a query of the full-text index: its words, lower-cased, each once and in double
quotes, joined by `OR`. The index has a query language of its own, so what matters is that nothing
of the text is read as a part of that language.
-/
namespace SupraHarness.Vector.Lexical

def maxQueryTokens : Nat := 32

def quote (term : List Char) : List Char := '"' :: term ++ ['"']

/-- What the loop over the characters carries: the terms so far and the word being read. -/
structure Scan where
  terms : List (List Char)
  current : List Char

section

/-! The two functions of the standard library that follow the Unicode tables. -/
variable (isAlphanumeric : Char → Bool) (toLowercase : List Char → List Char)

def isWord (character : Char) : Bool := isAlphanumeric character || character == '_'

def pushTerm (terms : List (List Char)) (term : List Char) : List (List Char) :=
  if maxQueryTokens ≤ terms.length then terms
  else if terms.contains (quote (toLowercase term)) then terms
  else terms ++ [quote (toLowercase term)]

def Scan.push (scan : Scan) (character : Char) : Scan :=
  if isWord isAlphanumeric character then { scan with current := scan.current ++ [character] }
  else if scan.current ≠ [] then ⟨pushTerm toLowercase scan.terms scan.current, []⟩
  else scan

/-- The word the text ends in is a term as well. -/
def Scan.finish (scan : Scan) : List (List Char) :=
  if scan.current ≠ [] then pushTerm toLowercase scan.terms scan.current else scan.terms

/-- Turn free text into a query, or nothing when the text has no words. -/
def lexicalQuery (text : List Char) : Option (List Char) :=
  let terms := (text.foldl (Scan.push isAlphanumeric toLowercase) ⟨[], []⟩).finish toLowercase
  if terms = [] then none else some (" OR ".toList.intercalate terms)

/-! ## The words of a text -/

/-- The longest runs of word characters, from left to right. -/
def words (text : List Char) : List (List Char) :=
  (text.splitOnP fun character => !isWord isAlphanumeric character).filter (· ≠ [])

/-- The terms a text asks for: its words in lower case, the first of equal ones, up to the cap. -/
def queryTerms (text : List Char) : List (List Char) :=
  ((words isAlphanumeric text).map toLowercase).eraseDups.take maxQueryTokens

theorem quote_injective : Function.Injective quote := by
  intro one other h
  simpa [quote] using h

theorem modifyHead_nil_append (runs : List (List Char)) : runs.modifyHead ([] ++ ·) = runs := by
  cases runs <;> rfl

/-- The scan pushes the words in their order; the word under way is the front of the first one. -/
theorem finish_foldl (text : List Char) (terms : List (List Char)) (current : List Char) :
    (text.foldl (Scan.push isAlphanumeric toLowercase) ⟨terms, current⟩).finish toLowercase =
      (((text.splitOnP fun character => !isWord isAlphanumeric character).modifyHead
        (current ++ ·)).filter (· ≠ [])).foldl (pushTerm toLowercase) terms := by
  induction text generalizing terms current with
  | nil =>
    by_cases hcurrent : current = []
    · simp [Scan.finish, hcurrent]
    · simp [Scan.finish, hcurrent]
  | cons character text ih =>
    rw [List.foldl_cons, List.splitOnP_cons_eq_if_modifyHead]
    by_cases hword : isWord isAlphanumeric character = true
    · have hpush : Scan.push isAlphanumeric toLowercase ⟨terms, current⟩ character =
          ⟨terms, current ++ [character]⟩ := by simp [Scan.push, hword]
      rw [hpush, ih]
      simp only [hword, Bool.not_true, Bool.false_eq_true, if_false, List.modifyHead_modifyHead]
      have happ : (fun rest => current ++ [character] ++ rest) =
          (fun rest => current ++ rest) ∘ List.cons character := by
        funext rest
        simp
      rw [happ]
    · simp only [Bool.not_eq_true] at hword
      by_cases hcurrent : current = []
      · have hpush : Scan.push isAlphanumeric toLowercase ⟨terms, current⟩ character =
            ⟨terms, []⟩ := by simp [Scan.push, hword, hcurrent]
        rw [hpush, ih, modifyHead_nil_append]
        simp [hword, hcurrent]
      · have hpush : Scan.push isAlphanumeric toLowercase ⟨terms, current⟩ character =
            ⟨pushTerm toLowercase terms current, []⟩ := by simp [Scan.push, hword, hcurrent]
        rw [hpush, ih, modifyHead_nil_append]
        simp [hword, hcurrent]

/-- Pushing words keeps what is there and adds the new terms, each once, as far as the cap goes. -/
theorem foldl_pushTerm (pushed : List (List Char)) (terms : List (List Char)) :
    pushed.foldl (pushTerm toLowercase) (terms.map quote) =
      (terms ++ (((pushed.map toLowercase).filter (!terms.contains ·)).eraseDups.take
        (maxQueryTokens - terms.length))).map quote := by
  induction pushed generalizing terms with
  | nil => simp
  | cons word pushed ih =>
    have hmem : quote (toLowercase word) ∈ terms.map quote ↔ toLowercase word ∈ terms :=
      List.mem_map_of_injective quote_injective
    rw [List.foldl_cons, List.map_cons]
    by_cases hfull : maxQueryTokens ≤ terms.length
    · have hpush : pushTerm toLowercase (terms.map quote) word = terms.map quote := by
        simp [pushTerm, hfull]
      rw [hpush, ih, Nat.sub_eq_zero_of_le hfull]
      simp
    · by_cases hknown : toLowercase word ∈ terms
      · have hpush : pushTerm toLowercase (terms.map quote) word = terms.map quote := by
          simp [pushTerm, hmem, hknown]
        rw [hpush, ih]
        simp [hknown]
      · have hpush : pushTerm toLowercase (terms.map quote) word =
            (terms ++ [toLowercase word]).map quote := by
          simp [pushTerm, hmem, hknown, hfull]
        have hroom : maxQueryTokens - terms.length =
            maxQueryTokens - (terms ++ [toLowercase word]).length + 1 := by
          rw [List.length_append, List.length_singleton]
          omega
        have hfilter : (fun other => !(terms ++ [toLowercase word]).contains other) =
            fun other => !(other == toLowercase word) && !terms.contains other := by
          funext other
          by_cases heq : other = toLowercase word <;> simp [heq]
        rw [hpush, ih, List.filter_cons_of_pos (by simpa using hknown), List.eraseDups_cons, hroom,
          List.take_succ_cons, List.filter_filter, hfilter, List.append_assoc, List.singleton_append]

theorem finish_eq_queryTerms (text : List Char) :
    (text.foldl (Scan.push isAlphanumeric toLowercase) ⟨[], []⟩).finish toLowercase =
      (queryTerms isAlphanumeric toLowercase text).map quote := by
  have hfold := foldl_pushTerm toLowercase (words isAlphanumeric text) []
  rw [finish_foldl, modifyHead_nil_append]
  simpa [queryTerms, words] using hfold

/-! ## What the index reads -/

/-- What a reader of the query language finds: the text between two quotes, in which a doubled
quote stands for one, or a character outside them, which the language gives a meaning of its own. -/
inductive Piece where
  | literal (text : List Char)
  | sign (character : Char)
  deriving DecidableEq, Repr

inductive Mode where
  | outside
  | inside (text : List Char)
  /-- After a quote inside a literal: the end of the literal, or the first of two quotes. -/
  | closing (text : List Char)

/-- Reading stops without a result when a literal is not closed. -/
def readFrom : Mode → List Char → Option (List Piece)
  | .outside, [] => some []
  | .outside, character :: rest =>
    if character = '"' then readFrom (.inside []) rest
    else if character = ' ' then readFrom .outside rest
    else (readFrom .outside rest).map (Piece.sign character :: ·)
  | .inside _, [] => none
  | .inside text, character :: rest =>
    if character = '"' then readFrom (.closing text) rest
    else readFrom (.inside (text ++ [character])) rest
  | .closing text, [] => some [.literal text]
  | .closing text, character :: rest =>
    if character = '"' then readFrom (.inside (text ++ ['"'])) rest
    else if character = ' ' then (readFrom .outside rest).map (Piece.literal text :: ·)
    else (readFrom .outside rest).map fun pieces => .literal text :: .sign character :: pieces

def readQuery (query : List Char) : Option (List Piece) :=
  readFrom .outside query

/-- A disjunction of literals and nothing else. -/
def anyOf (terms : List (List Char)) : List Piece :=
  [Piece.sign 'O', Piece.sign 'R'].intercalate (terms.map fun term => [Piece.literal term])

theorem readFrom_inside {term : List Char} (hterm : '"' ∉ term) (text rest : List Char) :
    readFrom (.inside text) (term ++ '"' :: rest) = readFrom (.closing (text ++ term)) rest := by
  induction term generalizing text with
  | nil => simp [readFrom]
  | cons character term ih =>
    obtain ⟨hhead, htail⟩ := not_or.mp (mt List.mem_cons.mpr hterm)
    rw [List.cons_append, readFrom, if_neg (Ne.symm hhead), ih htail, List.append_assoc,
      List.singleton_append]

/-- Quoted terms without a quote of their own, joined by `OR`, are read as these terms. -/
theorem readQuery_intercalate {terms : List (List Char)} (hterms : ∀ term ∈ terms, '"' ∉ term) :
    readQuery (" OR ".toList.intercalate (terms.map quote)) = some (anyOf terms) := by
  induction terms with
  | nil => rfl
  | cons term terms ih =>
    have hterm : '"' ∉ term := hterms term List.mem_cons_self
    have hrest := ih fun other hother => hterms other (List.mem_cons_of_mem term hother)
    cases terms with
    | nil =>
      have hread := readFrom_inside hterm [] []
      simpa [readQuery, quote, readFrom, anyOf, List.intercalate] using hread
    | cons next terms =>
      rw [List.map_cons, List.map_cons, List.intercalate_cons_cons, ← List.map_cons]
      generalize " OR ".toList.intercalate ((next :: terms).map quote) = others at hrest ⊢
      have hread := readFrom_inside hterm [] (" OR ".toList ++ others)
      have hor : readFrom (.closing term) (" OR ".toList ++ others) =
          some (.literal term :: .sign 'O' :: .sign 'R' :: anyOf (next :: terms)) := by
        rw [readQuery] at hrest
        simp [readFrom, hrest]
      have hquote : quote term ++ " OR ".toList ++ others =
          '"' :: (term ++ '"' :: (" OR ".toList ++ others)) := by simp [quote]
      rw [hquote, readQuery, readFrom, if_pos rfl, hread, List.nil_append, hor]
      simp [anyOf, List.intercalate_cons_cons]

/-- The runs between separators hold no separator. -/
theorem not_separator_of_mem_splitOnP {separator : Char → Bool} {text word : List Char}
    (hword : word ∈ text.splitOnP separator) {character : Char} (hmem : character ∈ word) :
    separator character = false := by
  induction text generalizing word with
  | nil => simp_all
  | cons first text ih =>
    rw [List.splitOnP_cons_eq_if_modifyHead] at hword
    by_cases hfirst : separator first = true
    · rw [if_pos hfirst] at hword
      obtain rfl | hrest := List.mem_cons.mp hword
      · cases hmem
      · exact ih hrest hmem
    · rw [if_neg hfirst] at hword
      cases hsplit : text.splitOnP separator with
      | nil => exact absurd hsplit (List.splitOnP_ne_nil separator text)
      | cons head tail =>
        rw [hsplit, List.modifyHead_cons] at hword
        rw [hsplit] at ih
        obtain rfl | hrest := List.mem_cons.mp hword
        · obtain rfl | hhead := List.mem_cons.mp hmem
          · simpa using hfirst
          · exact ih List.mem_cons_self hhead
        · exact ih (List.mem_cons_of_mem head hrest) hmem

theorem quote_notMem_words (hquote : isAlphanumeric '"' = false) {text word : List Char}
    (hword : word ∈ words isAlphanumeric text) : '"' ∉ word := by
  intro hmem
  have hword := (List.mem_filter.mp hword).1
  have := not_separator_of_mem_splitOnP hword hmem
  simp [isWord, hquote] at this

theorem quote_notMem_queryTerms (hquote : isAlphanumeric '"' = false)
    (hlower : ∀ word, '"' ∉ word → '"' ∉ toLowercase word) {text term : List Char}
    (hterm : term ∈ queryTerms isAlphanumeric toLowercase text) : '"' ∉ term := by
  have hmem := List.mem_eraseDups.mp (List.mem_of_mem_take hterm)
  obtain ⟨word, hword, rfl⟩ := List.mem_map.mp hmem
  exact hlower word (quote_notMem_words isAlphanumeric hquote hword)

theorem queryTerms_eq_nil {text : List Char} :
    queryTerms isAlphanumeric toLowercase text = [] ↔ words isAlphanumeric text = [] := by
  cases hwords : words isAlphanumeric text with
  | nil => simp [queryTerms, hwords]
  | cons word rest => simp [queryTerms, hwords, maxQueryTokens, List.eraseDups_cons]

/-- What the index reads is a disjunction of the words of the text, whatever the text is: none of
it is taken for an operator, and no literal is left open. There is no query only for a text
without words. -/
theorem lexicalQuery_reads_words (hquote : isAlphanumeric '"' = false)
    (hlower : ∀ word, '"' ∉ word → '"' ∉ toLowercase word) (text : List Char) :
    (lexicalQuery isAlphanumeric toLowercase text = none ↔ words isAlphanumeric text = []) ∧
      ∀ query, lexicalQuery isAlphanumeric toLowercase text = some query →
        readQuery query = some (anyOf (queryTerms isAlphanumeric toLowercase text)) := by
  have hterms := finish_eq_queryTerms isAlphanumeric toLowercase text
  have hquery : lexicalQuery isAlphanumeric toLowercase text =
      if queryTerms isAlphanumeric toLowercase text = [] then none
      else some (" OR ".toList.intercalate ((queryTerms isAlphanumeric toLowercase text).map quote)) := by
    simp only [lexicalQuery, hterms, List.map_eq_nil_iff]
  rw [← queryTerms_eq_nil isAlphanumeric toLowercase, hquery]
  constructor
  · simp
  · intro query hsome
    by_cases hnil : queryTerms isAlphanumeric toLowercase text = []
    · simp [hnil] at hsome
    · rw [if_neg hnil, Option.some_inj] at hsome
      rw [← hsome]
      exact readQuery_intercalate fun term hterm =>
        quote_notMem_queryTerms isAlphanumeric toLowercase hquote hlower hterm

end

theorem toLower_eq_quote {character : Char} (h : character.toLower = '"') : character = '"' := by
  by_cases hupper : character.val ≥ 'A'.val ∧ character.val ≤ 'Z'.val
  · have hlower : character.toLower.val = character.val + ('a'.val - 'A'.val) :=
      congrArg Char.val (dif_pos hupper)
    have hfirst : 65 ≤ character.toNat := by simpa using UInt32.le_iff_toNat_le.mp hupper.1
    have hlast : character.toNat ≤ 90 := by simpa using UInt32.le_iff_toNat_le.mp hupper.2
    have hsum := congrArg UInt32.toNat (h ▸ hlower)
    rw [UInt32.toNat_add] at hsum
    have hquote : 34 = (character.toNat + 32) % 2 ^ 32 := by simpa using hsum
    omega
  · exact (dif_neg hupper).symm.trans h

theorem lexicalQuery_reads_words_call :
    lexicalQuery Char.isAlphanum (List.map Char.toLower) "Recall(recall, \"turn_1\")".toList =
      some "\"recall\" OR \"turn_1\"".toList ∧
    readQuery "\"recall\" OR \"turn_1\"".toList =
      some (anyOf (queryTerms Char.isAlphanum (List.map Char.toLower)
        "Recall(recall, \"turn_1\")".toList)) := by
  have hquery : lexicalQuery Char.isAlphanum (List.map Char.toLower)
      "Recall(recall, \"turn_1\")".toList = some "\"recall\" OR \"turn_1\"".toList := by
    decide
  refine ⟨hquery, (lexicalQuery_reads_words Char.isAlphanum (List.map Char.toLower) rfl ?_ _).2 _
    hquery⟩
  intro word hword hmem
  obtain ⟨character, hcharacter, hlower⟩ := List.mem_map.mp hmem
  exact hword (toLower_eq_quote hlower ▸ hcharacter)

end SupraHarness.Vector.Lexical
