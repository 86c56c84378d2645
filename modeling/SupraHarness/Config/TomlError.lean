import SupraHarness.Config.Endpoint
import SupraHarness.Lib.DebugText

/-!
# What a parse failure reports

The place and the cause, without the content. The cause of a value of the wrong type quotes the value, and
what stands between two quotes of the message is left out. A quote in the value is one of these: the value
is left out up to its first quote only.
-/
namespace SupraHarness.Configuration

/-- What is read of the parser's error: its message, and where its span starts, in bytes. -/
structure TomlError where
  message : Text
  spanStart : Option Nat

/-- Remove the value from a wrong-type deserialisation message. -/
def stripDeserializedValue (message : Text) : Text :=
  match Scan.find "invalid type:".toList message with
  | none => message
  | some marker =>
    let after := message.drop marker
    match after.findIdx? (· = '"') with
    | none => message
    | some opening =>
      let valueEnd := after.drop (opening + 1)
      match valueEnd.findIdx? (· = '"') with
      | none => message
      | some close => message.take marker ++ "invalid type: <redacted>".toList ++ valueEnd.drop (close + 1)

/-- `text.get(..offset)`: the text in front of a byte offset, if that is a boundary. -/
def before (offset : Nat) : Text → Option Text
  | [] => if offset = 0 then some [] else none
  | c :: text =>
    if offset = 0 then some []
    else if c.utf8Size ≤ offset then (before (offset - c.utf8Size) text).map (c :: ·)
    else none

/-- One-based line and column of a byte offset. -/
def lineAndColumn (text : Text) (offset : Nat) : Option (Nat × Nat) :=
  (before offset text).map fun front =>
    (front.count '\n' + 1, (front.reverse.takeWhile (· ≠ '\n')).length + 1)

/-- Describe a TOML failure without quoting the file. -/
def describeTomlError (text : Text) (error : TomlError) : Text :=
  let message := stripDeserializedValue error.message
  match error.spanStart with
  | none => message
  | some start =>
    match lineAndColumn text start with
    | none => message
    | some (line, column) =>
      "line ".toList ++ Nat.toDigits 10 line ++ ", column ".toList ++ Nat.toDigits 10 column ++ ": ".toList ++ message

section WrongType
variable (numbered : Char → Bool)

/-- How the parser words a text where another type is expected. -/
def invalidType (value expectation : Text) : Text :=
  "invalid type: string ".toList ++ DebugText.quote numbered value ++ expectation

/-- What is reported of a file with a value, spelled somehow, between two parts; the span starts with the
value, if it is known. -/
def reportOf (front : Text) (spelled : Text) (back : Text) (spanned : Bool) (value expectation : Text) : Text :=
  describeTomlError (front ++ spelled ++ back)
    ⟨invalidType numbered value expectation, if spanned then some (Utf8.encode front).length else none⟩

end WrongType

/-- What follows the first quote of a text. -/
def afterQuote (text : Text) : Option Text := (text.findIdx? (· = '"')).map fun quote => text.drop (quote + 1)

/-! ## What is left of the value -/

theorem findIdx?_append_cons {c : Char} {front : Text} (absent : c ∉ front) (rest : Text) :
    (front ++ c :: rest).findIdx? (· = c) = some front.length := by
  induction front with
  | nil => simp [List.findIdx?_cons]
  | cons d front ih =>
    simp only [List.mem_cons, not_or] at absent
    rw [List.cons_append, List.findIdx?_cons, if_neg (by simpa using Ne.symm absent.1), ih absent.2]
    rfl

theorem afterQuote_append {front : Text} (absent : '"' ∉ front) (rest : Text) :
    afterQuote (front ++ '"' :: rest) = some rest := by
  rw [afterQuote, findIdx?_append_cons absent, Option.map_some, ← List.drop_drop, List.drop_left]
  rfl

/-- A text has no quote, or comes apart at its first one. -/
theorem quote_cases (text : Text) :
    ('"' ∉ text ∧ afterQuote text = none) ∨
      ∃ front rest, text = front ++ '"' :: rest ∧ '"' ∉ front ∧ afterQuote text = some rest := by
  by_cases mem : '"' ∈ text
  · obtain ⟨front, rest, rfl, absent⟩ := List.eq_append_cons_of_mem mem
    exact .inr ⟨front, rest, rfl, absent, afterQuote_append absent rest⟩
  · refine .inl ⟨mem, ?_⟩
    have none_ : text.findIdx? (· = '"') = none := by
      rw [List.findIdx?_eq_none_iff]
      intro c inside
      simp only [decide_eq_false_iff_not]
      rintro rfl
      exact mem inside
    rw [afterQuote, none_]
    rfl

section WrongType
variable (numbered : Char → Bool)

theorem quote_notMem_flatMap {text : Text} (absent : '"' ∉ text) :
    '"' ∉ text.flatMap (DebugText.escape numbered) := by
  intro mem
  obtain ⟨c, inside, here⟩ := List.mem_flatMap.1 mem
  exact DebugText.quote_notMem_escape (fun same => absent (same ▸ inside)) here

/-- The value that is left standing: what follows its first quote. -/
def remainder (value expectation : Text) : Text :=
  match afterQuote value with
  | none => expectation
  | some rest => rest.flatMap (DebugText.escape numbered) ++ '"' :: expectation

theorem stripDeserializedValue_eq (value expectation : Text) :
    stripDeserializedValue (invalidType numbered value expectation) =
      "invalid type: <redacted>".toList ++ remainder numbered value expectation := by
  have shape : invalidType numbered value expectation = "invalid type: string ".toList ++
      '"' :: (value.flatMap (DebugText.escape numbered) ++ '"' :: expectation) := by
    have behind : DebugText.quote numbered value ++ expectation =
        '"' :: (value.flatMap (DebugText.escape numbered) ++ '"' :: expectation) := by
      simp [DebugText.quote]
    exact (List.append_assoc _ _ _).trans (congrArg ("invalid type: string ".toList ++ ·) behind)
  have marked : Scan.find "invalid type:".toList (invalidType numbered value expectation) = some 0 := by
    refine Scan.find_of_starts ?_
    rw [shape]
    exact (show "invalid type:".toList <+: "invalid type: string ".toList from ⟨" string ".toList, by decide⟩).trans
      (List.prefix_append _ _)
  have opening : (invalidType numbered value expectation).findIdx? (· = '"') =
      some "invalid type: string ".toList.length := by
    rw [shape]
    exact findIdx?_append_cons (by decide) _
  have inside : (invalidType numbered value expectation).drop ("invalid type: string ".toList.length + 1) =
      value.flatMap (DebugText.escape numbered) ++ '"' :: expectation := by
    rw [shape, ← List.drop_drop, List.drop_left, List.drop_succ_cons, List.drop_zero]
  have cut : ∀ front rest : Text, '"' ∉ front →
      value.flatMap (DebugText.escape numbered) ++ '"' :: expectation = front ++ '"' :: rest →
      stripDeserializedValue (invalidType numbered value expectation) =
        "invalid type: <redacted>".toList ++ rest := by
    intro front rest absent split
    rw [stripDeserializedValue, marked]
    dsimp only
    rw [List.drop_zero, opening]
    dsimp only
    rw [inside, split, findIdx?_append_cons absent]
    dsimp only
    rw [← List.drop_drop, List.drop_left, List.drop_succ_cons, List.drop_zero, List.take_zero, List.nil_append]
  rw [remainder]
  rcases quote_cases value with ⟨absent, none_⟩ | ⟨front, rest, rfl, absent, some_⟩
  · rw [none_]
    exact cut _ _ (quote_notMem_flatMap numbered absent) rfl
  · rw [some_]
    refine cut (front.flatMap (DebugText.escape numbered) ++ ['\\']) _ ?_ ?_
    · simpa using quote_notMem_flatMap numbered absent
    · simp [DebugText.escape, DebugText.letter]

theorem remainder_inj {value other expectation : Text} :
    remainder numbered value expectation = remainder numbered other expectation ↔
      afterQuote value = afterQuote other := by
  rw [remainder, remainder]
  cases afterQuote value with
  | none =>
    cases afterQuote other with
    | none => simp
    | some rest =>
      refine iff_of_false (fun same => ?_) (by simp)
      have length := congrArg List.length same
      simp at length
      omega
  | some rest =>
    cases afterQuote other with
    | none =>
      refine iff_of_false (fun same => ?_) (by simp)
      have length := congrArg List.length same
      simp at length
      omega
    | some rest' =>
      constructor
      · intro same
        rw [Code.PrefixFree.flatMap_inj DebugText.escape_prefixFree DebugText.escape_ne_nil
          (List.append_cancel_right same)]
      · rintro ⟨rfl⟩
        rfl

theorem before_append (front rest : Text) : before (Utf8.encode front).length (front ++ rest) = some front := by
  induction front with
  | nil => cases rest <;> rfl
  | cons c front ih =>
    have size : (Utf8.encode (c :: front)).length = c.utf8Size + (Utf8.encode front).length := by
      rw [Utf8.encode_cons, List.length_append, String.length_utf8EncodeChar]
    have positive := c.utf8Size_pos
    rw [size, List.cons_append, before, if_neg (by omega), if_pos (by omega), Nat.add_sub_cancel_left, ih]
    rfl

/-- Two values of the wrong type are reported alike exactly where the same text follows the first quote of
each, or neither has one. -/
theorem reportOf_eq_iff (front back expectation : Text) (spanned : Bool) (spelled spelled' value value' : Text) :
    reportOf numbered front spelled back spanned value expectation =
        reportOf numbered front spelled' back spanned value' expectation ↔
      afterQuote value = afterQuote value' := by
  have located : ∀ spelled : Text, lineAndColumn (front ++ spelled ++ back) (Utf8.encode front).length =
      some (front.count '\n' + 1, (front.reverse.takeWhile (· ≠ '\n')).length + 1) := by
    intro spelled
    rw [lineAndColumn, List.append_assoc, before_append]
    rfl
  rw [reportOf, reportOf, describeTomlError, describeTomlError, stripDeserializedValue_eq,
    stripDeserializedValue_eq, ← remainder_inj numbered]
  cases spanned with
  | false => exact List.append_right_inj _
  | true =>
    rw [if_pos rfl]
    dsimp only
    rw [located, located]
    dsimp only
    rw [List.append_right_inj, List.append_right_inj]

end WrongType

/-- Two credentials in the field of a number, told apart by what follows their first quote. -/
theorem report_depends_on_value :
    reportOf (fun _ => false) "[cohort]\nlimit = ".toList "'a\"b'".toList "\n".toList true "a\"b".toList
        ", expected usize".toList ≠
      reportOf (fun _ => false) "[cohort]\nlimit = ".toList "'a\"c'".toList "\n".toList true "a\"c".toList
        ", expected usize".toList := by
  decide

end SupraHarness.Configuration
