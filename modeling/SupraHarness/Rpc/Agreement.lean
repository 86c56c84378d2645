import SupraHarness.Dap.Client
import SupraHarness.Lib.Lines
import SupraHarness.Lib.Results
import SupraHarness.Lsp.Client
import SupraHarness.Rpc.Framing

/-!
# The two readings of a header

The client that cuts a message off its input goes by the first line of the length's name, with lines that end at line
feeds; the parser that reads the message goes by the last one, with lines that end at a carriage return and a line
feed. The parser takes exactly what was cut off where both lines declare the same length.
-/
namespace SupraHarness.Rpc

open Chunks Scan Str Utf8

/-- A header and what stands behind its blank line, the first there is. -/
def Headed (bytes header body : Bytes) : Prop :=
  bytes = header ++ blankLine ++ body ∧ ¬ blankLine <:+: header ++ [13, 10, 13]

/-- A header line of the name with this number. -/
def Declares (line : Text) (length : Nat) : Prop :=
  ∃ value, line = lengthName ++ value ∧ parseUsize (trim value) = .ok length

/-- The first of the lines that begin with the name declares this length. -/
def FirstDeclares (lines : List Text) (length : Nat) : Prop :=
  ∃ before line after, lines = before ++ line :: after ∧ (∀ other ∈ before, ¬ lengthName <+: other) ∧ Declares line length

/-- The last of the lines that begin with the name declares this length. -/
def LastDeclares (lines : List Text) (length : Nat) : Prop :=
  ∃ before line after, lines = before ++ line :: after ∧ (∀ other ∈ after, ¬ lengthName <+: other) ∧ Declares line length

/-- The last length that the header of these bytes declares ends past the address space. -/
def Overflows (bytes : Bytes) : Prop :=
  ∃ header body length, Headed bytes header body ∧ LastDeclares (splitCrlf (fromUtf8Lossy header)) length ∧
    2 ^ 64 ≤ header.length + 4 + length

/-- The header of a message declares one length in the first line of the name and in the last, the lines of the first
ended by line feeds and those of the last by a carriage return and a line feed. -/
def Agrees (message : Bytes) : Prop :=
  ∃ header body text length, Headed message header body ∧ fromUtf8 (header ++ blankLine) = .ok text ∧
    FirstDeclares (lines text) length ∧ LastDeclares (splitCrlf (fromUtf8Lossy header)) length

/-! ## The first blank line -/

theorem findHeadersEnd_eq_some {bytes : Bytes} {position : Nat} :
    findHeadersEnd bytes = some position ↔ ∃ header body, Headed bytes header body ∧ header.length = position := by
  induction bytes generalizing position with
  | nil =>
    refine iff_of_false nofun ?_
    rintro ⟨header, body, ⟨whole, -⟩, -⟩
    simp [blankLine] at whole
  | cons byte bytes ih =>
    rw [findHeadersEnd]
    split_ifs with starts
    · obtain ⟨body, whole⟩ := starts
      constructor
      · intro h
        cases h
        exact ⟨[], body, ⟨whole.symm, by decide⟩, rfl⟩
      · rintro ⟨header, body', ⟨whole', fresh⟩, rfl⟩
        cases header with
        | nil => rfl
        | cons first header =>
          refine absurd (List.IsPrefix.isInfix (List.prefix_of_prefix_length_le ⟨body, whole⟩ ?_ ?_)) fresh
          · exact ⟨10 :: body', by rw [whole']; simp [blankLine]⟩
          · simp [blankLine]
    · rw [Option.map_eq_some_iff]
      constructor
      · rintro ⟨position, found, rfl⟩
        obtain ⟨header, body, ⟨rfl, fresh⟩, rfl⟩ := ih.1 found
        refine ⟨byte :: header, body, ⟨rfl, ?_⟩, rfl⟩
        rw [List.cons_append, List.infix_cons_iff, not_or]
        refine ⟨fun early => starts (early.trans ⟨10 :: body, ?_⟩), fresh⟩
        simp [blankLine]
      · rintro ⟨header, body, ⟨whole, fresh⟩, rfl⟩
        cases header with
        | nil => exact absurd ⟨body, whole.symm⟩ starts
        | cons first header =>
          obtain ⟨rfl, rest⟩ := List.cons.inj whole
          rw [List.cons_append, List.infix_cons_iff, not_or] at fresh
          exact ⟨header.length, ih.2 ⟨header, body, ⟨rest, fresh.2⟩, rfl⟩, rfl⟩

theorem Headed.unique {bytes header body header' body' : Bytes} (h : Headed bytes header body)
    (h' : Headed bytes header' body') : header = header' ∧ body = body' := by
  have found := findHeadersEnd_eq_some.2 ⟨header, body, h, rfl⟩
  rw [findHeadersEnd_eq_some.2 ⟨header', body', h', rfl⟩] at found
  have same := h.1.symm.trans h'.1
  rw [List.append_assoc, List.append_assoc] at same
  obtain ⟨rfl, rest⟩ := List.append_inj same (Option.some.inj found).symm
  exact ⟨rfl, List.append_cancel_left rest⟩

/-- No blank line ends in bytes without a line feed. -/
theorem fresh_append {header line : Bytes} (fresh : ¬ blankLine <:+: header) (free : 10 ∉ line) :
    ¬ blankLine <:+: header ++ line := by
  rintro ⟨front, back, whole⟩
  rcases List.append_eq_append_iff.1 whole with ⟨more, rest, -⟩ | ⟨more, ends, rest⟩
  · exact fresh ⟨front, more, rest.symm⟩
  · have last : more.getLast? = some 10 ∨ more = [] := by
      have ends := congrArg List.getLast? ends
      cases more with
      | nil => exact .inr rfl
      | cons byte more =>
        rw [List.getLast?_append_of_ne_nil _ (List.cons_ne_nil byte more)] at ends
        rw [← ends]
        exact .inl (by simp [blankLine])
    rcases last with last | rfl
    · exact free (rest ▸ List.mem_append_left _ (List.mem_of_getLast? last))
    · exact fresh ⟨front, [], by rw [List.append_nil, ends, List.append_nil]⟩

/-- What is read line by line up to a blank line ends with the first there is. -/
theorem readHeader_ok {fuel : Nat} {header read : Bytes} {input rest : PipedInput} (fresh : ¬ blankLine <:+: header)
    (h : readHeader fuel header input = .ok (some (read, rest))) :
    ∃ front, read = front ++ blankLine ∧ ¬ blankLine <:+: front ++ [13, 10, 13] := by
  induction fuel generalizing header input with
  | zero => cases h
  | succ fuel ih =>
    rw [readHeader] at h
    split at h
    · cases h
    · cases h
    · rename_i line next filled taken
      have early : ¬ blankLine <:+: header ++ line.dropLast := fresh_append fresh (Source.readUntil_ok taken)
      have some : line ≠ [] := fun none => filled none
      split_ifs at h with blank
      · cases h
        obtain ⟨front, whole⟩ := blank
        refine ⟨front, whole.symm, ?_⟩
        have cut := congrArg List.dropLast whole
        rw [List.dropLast_append_of_ne_nil (by decide), List.dropLast_append_of_ne_nil some] at cut
        rw [← cut] at early
        exact early
      · refine ih ?_ h
        rw [← List.dropLast_append_getLast some, ← List.append_assoc, List.infix_concat_iff, List.append_assoc,
          List.dropLast_append_getLast some, not_or]
        exact ⟨blank, early⟩

/-! ## The declared lengths -/

theorem stripPrefix_eq_none {line : Text} : stripPrefix lengthName line = none ↔ ¬ lengthName <+: line := by
  rw [stripPrefix]
  split_ifs with starts
  · exact iff_of_false nofun fun not => not (List.isPrefixOf_iff_prefix.1 starts)
  · exact iff_of_true rfl fun pre => starts (List.isPrefixOf_iff_prefix.2 pre)

theorem declares_iff {line value : Text} (found : stripPrefix lengthName line = some value) {length : Nat} :
    Declares line length ↔ parseUsize (trim value) = .ok length := by
  constructor
  · rintro ⟨value', rfl, parsed⟩
    rw [stripPrefix_eq_some.2 rfl] at found
    cases found
    exact parsed
  · intro parsed
    exact ⟨value, stripPrefix_eq_some.1 found, parsed⟩

/-- The number is that of the line, if the line is the first of the name. -/
theorem firstDeclares_iff {before after : List Text} {line : Text} (others : ∀ other ∈ before, ¬ lengthName <+: other)
    (named : lengthName <+: line) {length : Nat} :
    FirstDeclares (before ++ line :: after) length ↔ Declares line length := by
  constructor
  · rintro ⟨before', line', after', whole, others', declares⟩
    have named' : lengthName <+: line' := by
      obtain ⟨value, rfl, -⟩ := declares
      exact List.prefix_append _ _
    obtain ⟨-, rfl, -⟩ := Lines.first_unique (p := fun line => lengthName <+: line) others named others' named' whole
    exact declares
  · intro declares
    exact ⟨before, line, after, rfl, others, declares⟩

/-- The last line of the name is the first from behind. -/
theorem lastDeclares_iff_reverse {lines : List Text} {length : Nat} :
    LastDeclares lines length ↔ FirstDeclares lines.reverse length := by
  constructor
  · rintro ⟨before, line, after, rfl, others, declares⟩
    refine ⟨after.reverse, line, before.reverse, by simp, fun other mem => others other (List.mem_reverse.1 mem), declares⟩
  · rintro ⟨before, line, after, whole, others, declares⟩
    refine ⟨after.reverse, line, before.reverse, ?_, fun other mem => others other (List.mem_reverse.1 mem), declares⟩
    rw [← List.reverse_reverse lines, whole]
    simp

theorem firstDeclares_cons {line : Text} {lines : List Text} {length : Nat} : FirstDeclares (line :: lines) length ↔
    if lengthName <+: line then Declares line length else FirstDeclares lines length := by
  split_ifs with named
  · exact firstDeclares_iff (List.forall_mem_nil _) named
  · constructor
    · rintro ⟨before, line', after, whole, others, declares⟩
      cases before with
      | nil =>
        obtain ⟨rfl, -⟩ := List.cons.inj whole
        obtain ⟨value, rfl, -⟩ := declares
        exact absurd (List.prefix_append _ _) named
      | cons first before =>
        obtain ⟨rfl, rfl⟩ := List.cons.inj whole
        exact ⟨before, line', after, rfl, (List.forall_mem_cons.1 others).2, declares⟩
    · rintro ⟨before, line', after, rfl, others, declares⟩
      exact ⟨line :: before, line', after, rfl, List.forall_mem_cons.2 ⟨named, others⟩, declares⟩

theorem not_firstDeclares_nil {length : Nat} : ¬ FirstDeclares [] length := by
  rintro ⟨before, line, after, whole, -⟩
  simp at whole

/-- The parser goes by the last line of the name. -/
theorem frameLength_eq_some {headers : Text} {length : Nat} :
    frameLength headers = some length ↔ LastDeclares (splitCrlf headers) length := by
  rw [lastDeclares_iff_reverse, frameLength, ← List.foldr_reverse]
  induction (splitCrlf headers).reverse with
  | nil => exact iff_of_false (by rintro ⟨⟩) not_firstDeclares_nil
  | cons line lines ih =>
    rw [List.foldr_cons, firstDeclares_cons]
    cases found : stripPrefix lengthName line with
    | none => rw [if_neg (stripPrefix_eq_none.1 found), ← ih]
    | some value =>
      have named : lengthName <+: line := ⟨value, (stripPrefix_eq_some.1 found).symm⟩
      rw [if_pos named, declares_iff found]
      dsimp only
      cases parseUsize (trim value) with
      | error error => exact iff_of_false (by rintro ⟨⟩) (by rintro ⟨⟩)
      | ok number =>
        change some number = some length ↔ _
        rw [Option.some.injEq, Except.ok.injEq]

/-- The reader goes by the first line of the name. -/
theorem declaredLength_eq_ok {header : Bytes} {length : Nat} : declaredLength header = .ok length ↔
    ∃ text, fromUtf8 header = .ok text ∧ FirstDeclares (lines text) length := by
  rw [declaredLength]
  cases fromUtf8 header with
  | error error => exact iff_of_false (by rintro ⟨⟩) (by rintro ⟨text, bad, -⟩; cases bad)
  | ok text =>
    simp only [Except.ok.injEq, exists_eq_left']
    induction lines text with
    | nil => exact iff_of_false (by rintro ⟨⟩) not_firstDeclares_nil
    | cons line lines ih =>
      rw [firstDeclares_cons, List.findSome?_cons]
      cases found : stripPrefix lengthName line with
      | none => rw [if_neg (stripPrefix_eq_none.1 found), ← ih]
      | some value =>
        have named : lengthName <+: line := ⟨value, (stripPrefix_eq_some.1 found).symm⟩
        rw [if_pos named, declares_iff found]
        dsimp only
        cases parseUsize (trim value) with
        | error error => exact iff_of_false (by rintro ⟨⟩) (by rintro ⟨⟩)
        | ok number => simp

/-! ## What is cut off and what is found in it -/

/-- A message that is cut off is a header, and as many bytes as the first line of the name declares. -/
theorem readMessage_ok {input rest : PipedInput} {message : Bytes} (h : readMessage input = .ok (some (message, rest))) :
    ∃ header body text, Headed message header body ∧ fromUtf8 (header ++ blankLine) = .ok text ∧
      FirstDeclares (lines text) body.length := by
  obtain ⟨found, head, h⟩ := Results.bind_eq_ok.1 h
  cases found with
  | none => cases h
  | some found =>
    obtain ⟨read, next⟩ := found
    obtain ⟨length, declared, h⟩ := Results.bind_eq_ok.1 h
    obtain ⟨header, rfl, fresh⟩ := readHeader_ok (by decide) head
    split at h
    · cases h
    · rename_i body last taken
      cases h
      obtain ⟨text, decoded, declares⟩ := declaredLength_eq_ok.1 declared
      exact ⟨header, body, text, ⟨rfl, fresh⟩, decoded, Source.readExact_ok taken ▸ declares⟩

/-- The parser panics where the last declared length overflows. -/
theorem cutFrame_eq_panicked {input : Bytes} {offset : Nat} :
    cutFrame input offset = .panicked ↔ Overflows (input.drop offset) := by
  rw [cutFrame]
  dsimp only
  constructor
  · intro h
    cases found : findHeadersEnd (input.drop offset) with
    | none =>
      rw [found] at h
      cases h
    | some position =>
      obtain ⟨header, body, headed, rfl⟩ := findHeadersEnd_eq_some.1 found
      have front : (input.drop offset).take header.length = header := by
        rw [headed.1, List.append_assoc, List.take_left]
      rw [found] at h
      dsimp only at h
      rw [front] at h
      cases declared : frameLength (fromUtf8Lossy header) with
      | none =>
        rw [declared] at h
        cases h
      | some length =>
        rw [declared] at h
        dsimp only at h
        split_ifs at h with large
        exact ⟨header, body, length, headed, frameLength_eq_some.1 declared, large⟩
  · rintro ⟨header, body, length, headed, declares, large⟩
    have front : (input.drop offset).take header.length = header := by
      rw [headed.1, List.append_assoc, List.take_left]
    rw [findHeadersEnd_eq_some.2 ⟨header, body, headed, rfl⟩]
    dsimp only
    rw [front, frameLength_eq_some.2 declares]
    dsimp only
    rw [if_pos large]

/-- The parser takes a whole message that fits into memory where the last line of the name declares what stands behind
the header. -/
theorem cutFrame_whole_iff {message header body : Bytes} (headed : Headed message header body)
    (fits : message.length < 2 ^ 64) : (∃ text, cutFrame message 0 = .body text message.length) ↔
      LastDeclares (splitCrlf (fromUtf8Lossy header)) body.length := by
  have front : message.take header.length = header := by rw [headed.1, List.append_assoc, List.take_left]
  have length : message.length = header.length + 4 + body.length := by
    rw [headed.1, List.length_append, List.length_append]
    rfl
  rw [cutFrame]
  dsimp only
  rw [List.drop_zero, findHeadersEnd_eq_some.2 ⟨header, body, headed, rfl⟩, ← frameLength_eq_some]
  dsimp only
  rw [front]
  cases frameLength (fromUtf8Lossy header) with
  | none => exact iff_of_false nofun nofun
  | some declared =>
    dsimp only
    rw [Option.some.injEq]
    constructor
    · rintro ⟨text, h⟩
      split_ifs at h
      have next := (Cut.body.inj h).2
      omega
    · rintro rfl
      rw [if_neg (by omega), if_neg (by omega), length, Nat.zero_add]
      exact ⟨_, rfl⟩

/-- What is cut off as one message is taken whole where its header agrees. -/
theorem readMessage_cutFrame_iff {input rest : PipedInput} {message : Bytes}
    (h : readMessage input = .ok (some (message, rest))) (fits : message.length < 2 ^ 64) :
    (∃ text, cutFrame message 0 = .body text message.length) ↔ Agrees message := by
  obtain ⟨header, body, text, headed, decoded, first⟩ := readMessage_ok h
  rw [cutFrame_whole_iff headed fits]
  constructor
  · intro last
    exact ⟨header, body, text, body.length, headed, decoded, first, last⟩
  · rintro ⟨header', body', text', length, headed', decoded', first', last⟩
    obtain ⟨rfl, rfl⟩ := headed.unique headed'
    rw [decoded] at decoded'
    cases decoded'
    have declared := declaredLength_eq_ok.2 ⟨text, decoded, first⟩
    rw [declaredLength_eq_ok.2 ⟨text, decoded, first'⟩] at declared
    cases declared
    exact last

end SupraHarness.Rpc

/-!
## What a frame is read as

The frame of a value is read back as the value, whatever follows it. The readers of both clients stop with a panic
where a header declares a length past the address space, and take what their client cut off as one message where its
header declares one length to both.
-/
namespace SupraHarness.Rpc

open Llm (Value)
open Chunks Utf8

variable {φ : Type} {fromStr : Text → Except String (Value φ)}

/-- The frame of a body is cut off whole from what follows it. -/
theorem cutFrame_frame {body : Text} (fits : (encode (frame body)).length < 2 ^ 64) (trailing : Bytes) :
    cutFrame (encode (frame body) ++ trailing) 0 = .body body (encode (frame body)).length := by
  rw [frame_eq_wire] at fits ⊢
  exact cutFrame_wire .bare body trailing fits

/-- `read_frame` of a client that tells its messages by their values in its own way. -/
def readWith {ν F : Type} (fromStr : Text → Except String ν) (classify : ν → F) (malformed : String → F) (input : Bytes)
    (offset : Nat) : Option (F × Nat) :=
  match cutFrame input offset with
  | .panicked => none
  | .malformed reason => some (malformed reason, offset)
  | .body text next =>
    match fromStr text with
    | .ok value => some (classify value, next)
    | .error error => some (malformed error, next)

theorem readFrame_eq : Lsp.readFrame fromStr = readWith fromStr Lsp.classify .malformed := by
  funext input offset
  rw [Lsp.readFrame, readWith]
  cases cutFrame input offset with
  | panicked => rfl
  | malformed reason => rfl
  | body text next =>
    dsimp only
    cases fromStr text <;> rfl

theorem readFrameAt_eq : Dap.readFrameAt fromStr = readWith fromStr Dap.classify .malformed := by
  funext input offset
  rw [Dap.readFrameAt, readWith]
  cases cutFrame input offset with
  | panicked => rfl
  | malformed reason => rfl
  | body text next =>
    dsimp only
    cases fromStr text <;> rfl

section

variable {ν F : Type} {fromStr : Text → Except String ν} {classify : ν → F} {malformed : String → F}

theorem readWith_isSome (input : Bytes) (offset : Nat) :
    (readWith fromStr classify malformed input offset).isSome ↔ cutFrame input offset ≠ .panicked := by
  rw [readWith]
  cases cutFrame input offset with
  | panicked => exact iff_of_false nofun fun not => not rfl
  | malformed reason => exact iff_of_true rfl nofun
  | body text next =>
    dsimp only
    cases fromStr text <;> exact iff_of_true rfl nofun

/-- A message is consumed where its body ends with it. -/
theorem readWith_whole {message : Bytes} (filled : message ≠ []) :
    (∃ framed, readWith fromStr classify malformed message 0 = some (framed, message.length)) ↔
      ∃ text, cutFrame message 0 = .body text message.length := by
  have long : message.length ≠ 0 := fun none => filled (List.length_eq_zero_iff.1 none)
  rw [readWith]
  cases cutFrame message 0 with
  | panicked => exact iff_of_false nofun nofun
  | malformed reason =>
    refine iff_of_false ?_ nofun
    rintro ⟨framed, same⟩
    exact long (congrArg Prod.snd (Option.some.inj same)).symm
  | body text next =>
    dsimp only
    cases fromStr text <;> simp

end

theorem Headed.ne_nil {bytes header body : Bytes} (h : Headed bytes header body) : bytes ≠ [] := by
  rw [h.1]
  simp [blankLine]

/-- A frame is read as its value; a read ends without a panic where the last declared length does not overflow; and a
message that the client cuts off is read whole where its header agrees. -/
theorem frames_iff (toText : Value φ → Text) (fromStr : Text → Except String (Value φ)) :
    (∀ value trailing, fromStr (toText value) = .ok value → (encode (frame (toText value))).length < 2 ^ 64 →
        Lsp.readFrame fromStr (encode (frame (toText value)) ++ trailing) 0 =
          some (Lsp.classify value, (encode (frame (toText value))).length)) ∧
      (∀ input offset, offset ≤ input.length →
        ((Lsp.readFrame fromStr input offset).isSome ↔ ¬ Overflows (input.drop offset)) ∧
          ((Dap.readFrameAt fromStr input offset).isSome ↔ ¬ Overflows (input.drop offset))) ∧
      ∀ input message rest, readMessage input = .ok (some (message, rest)) → message.length < 2 ^ 64 →
        ((∃ framed, Lsp.readFrame fromStr message 0 = some (framed, message.length)) ↔ Agrees message) ∧
          ((∃ framed, Dap.readFrameAt fromStr message 0 = some (framed, message.length)) ↔ Agrees message) := by
  refine ⟨fun value trailing reads fits => ?_, fun input offset _ => ?_, fun input message rest cut fits => ?_⟩
  · rw [Lsp.readFrame, cutFrame_frame fits]
    dsimp only
    rw [reads]
  · rw [readFrame_eq, readFrameAt_eq, readWith_isSome, readWith_isSome, ne_eq, cutFrame_eq_panicked]
    exact ⟨Iff.rfl, Iff.rfl⟩
  · obtain ⟨header, body, text, headed, -⟩ := readMessage_ok cut
    rw [readFrame_eq, readFrameAt_eq, readWith_whole headed.ne_nil, readWith_whole headed.ne_nil,
      readMessage_cutFrame_iff cut fits]
    exact ⟨Iff.rfl, Iff.rfl⟩

/-- A reader of the text `null`. -/
def parseNull (text : Text) : Except String (Value Unit) :=
  if text = "null".toList then .ok .null else .error "expected value at line 1 column 1"

/-- The frame of `null`, and more behind it. -/
theorem frames_null : Lsp.readFrame parseNull (encode (frame "null".toList) ++ [1, 2]) 0 =
    some (Lsp.classify .null, (encode (frame "null".toList)).length) :=
  (frames_iff (fun _ => "null".toList) parseNull).1 .null [1, 2] rfl (by decide)

/-- A header that declares two lengths. -/
def twice : Bytes := encode "Content-Length: 2\r\nContent-Length: 1\r\n\r\n\x7b\x7d".toList

/-- A header that declares the greatest length there is. -/
def greatest : Bytes := encode "Content-Length: 18446744073709551615\r\n\r\n".toList

/-- The client cuts off the longer message, of which the parser leaves a byte; and at the greatest length the parser
panics. -/
theorem frames_differ :
    (readMessage ⟨twice, []⟩ = .ok (some (twice, ⟨[], []⟩)) ∧
        ¬ ∃ framed, Lsp.readFrame parseNull twice 0 = some (framed, twice.length)) ∧
      ¬ (Lsp.readFrame parseNull greatest 0).isSome := by
  refine ⟨⟨?_, ?_⟩, ?_⟩
  · rfl
  · rw [readFrame_eq, readWith_whole (by decide)]
    have cut : cutFrame twice 0 = .body ['\x7b'] (twice.length - 1) := by decide +kernel
    rw [cut]
    rintro ⟨text, same⟩
    exact absurd (Cut.body.inj same).2 (by decide +kernel)
  · rw [readFrame_eq, readWith_isSome]
    exact fun not => not (by decide +kernel)

end SupraHarness.Rpc
