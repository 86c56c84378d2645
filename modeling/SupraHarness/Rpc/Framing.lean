import Mathlib.Algebra.Group.Int.Defs
import Mathlib.Algebra.Group.Nat.Defs
import Mathlib.Data.List.Basic
import Mathlib.Data.List.TakeWhile
import SupraHarness.Lib.Chunks
import SupraHarness.Lib.Scan
import SupraHarness.Lib.Str

/-!
# Content-Length framing

The wire format that the language-server client and the debug-adapter client share: header lines, a
blank line, and a body of the declared number of bytes. A client cuts one message off its input, and
`read_frame` reads the body out of the message again.
-/
namespace SupraHarness.Rpc

open Chunks Scan Str Utf8

abbrev Text := List Char
abbrev Bytes := List UInt8

/-- The input of a client: its peer's output, and the errors of reading it. -/
abbrev PipedInput := Source UInt8 String

/-- Why a message was not read. -/
inductive ReadError where
  | transport (text : String)
  | protocol (text : String)
  deriving DecidableEq, Repr

def crlf : Text := ['\r', '\n']

def blankLine : Bytes := [13, 10, 13, 10]

def lengthName : Text := "Content-Length:".toList

/-- A request as it goes out. -/
def frame (body : Text) : Text :=
  lengthName ++ ' ' :: Nat.toDigits 10 (encode body).length ++ crlf ++ crlf ++ body

/-- Read lines until the header ends with a blank one. A peer that closes leaves nothing. -/
def readHeader : Nat → Bytes → PipedInput → Except ReadError (Option (Bytes × PipedInput))
  | 0, _, _ => .ok none
  | fuel + 1, header, input =>
    match input.readUntil 10 with
    | .error error => .error (.transport ("read: " ++ error))
    | .ok ([], _) => .ok none
    | .ok (line, input) =>
      if blankLine <:+ header ++ line then .ok (some (header ++ line, input))
      else readHeader fuel (header ++ line) input

/-- The length the reader goes by: that of the first header line of the name. -/
def declaredLength (header : Bytes) : Except ReadError Nat :=
  match fromUtf8 header with
  | .error _ => .error (.protocol "non-UTF-8 headers")
  | .ok text =>
    match (lines text).findSome? (stripPrefix lengthName) with
    | none => .error (.protocol "no Content-Length header")
    | some value =>
      match parseUsize (trim value) with
      | .error error => .error (.protocol ("Content-Length: " ++ error))
      | .ok length => .ok length

/-- Cut one message off the input, header and body; nothing from a peer that closed. -/
def readMessage (input : PipedInput) : Except ReadError (Option (Bytes × PipedInput)) := do
  match ← readHeader (input.size + 1) [] input with
  | none => return none
  | some (header, input) =>
    let length ← declaredLength header
    match input.readExact "the peer closed mid-frame" length with
    | .error error => throw (.transport ("read body: " ++ error))
    | .ok (body, input) => return some (header ++ body, input)

/-- The position of the first blank line. -/
def findHeadersEnd : Bytes → Option Nat
  | [] => none
  | byte :: rest =>
    if blankLine <+: byte :: rest then some 0 else (findHeadersEnd rest).map (· + 1)

/-- `str::split("\r\n")`. -/
def splitCrlf : Text → List Text
  | [] => [[]]
  | '\r' :: '\n' :: rest => [] :: splitCrlf rest
  | c :: rest =>
    match splitCrlf rest with
    | [] => [[c]]
    | line :: lines => (c :: line) :: lines

/-- The length the frame parser goes by: that of the last header line of the name. -/
def frameLength (headers : Text) : Option Nat :=
  (splitCrlf headers).foldl
    (fun found header =>
      match stripPrefix lengthName header with
      | some value => (parseUsize (trim value)).toOption
      | none => found) none

/-- What the parser finds at an offset: the text of a body and the offset after it, or why there
is none. A length past the end of the address space is added up all the same, and that panics. -/
inductive Cut where
  | body (text : Text) (next : Nat)
  | malformed (reason : String)
  | panicked
  deriving DecidableEq, Repr

def cutFrame (input : Bytes) (offset : Nat) : Cut :=
  let rest := input.drop offset
  match findHeadersEnd rest with
  | none => .malformed "no header terminator yet"
  | some headerEnd =>
    match frameLength (fromUtf8Lossy (rest.take headerEnd)) with
    | none => .malformed "no Content-Length header"
    | some contentLength =>
      let bodyStart := headerEnd + 4
      let bodyEnd := bodyStart + contentLength
      if 2 ^ 64 ≤ bodyEnd then .panicked
      else if rest.length < bodyEnd then .malformed "body shorter than Content-Length"
      else .body (fromUtf8Lossy ((rest.take bodyEnd).drop bodyStart)) (offset + bodyEnd)

/-- A line between two line ends. -/
structure Line (line : Text) : Prop where
  nonempty : line ≠ []
  noReturn : '\r' ∉ line
  noFeed : '\n' ∉ line

/-- A header line that says nothing about the length. -/
structure Plain (line : Text) : Prop extends Line line where
  other : ¬ lengthName <+: line

/-- The other header lines of a message, before and after its length. -/
structure Head where
  before : List Text
  after : List Text
  plain : ∀ line ∈ before ++ after, Plain line

def lengthLine (length : Nat) : Text := lengthName ++ ' ' :: Nat.toDigits 10 length

def Head.lines (head : Head) (length : Nat) : List Text :=
  head.before ++ lengthLine length :: head.after

/-- The header as text, its blank line included. -/
def Head.text (head : Head) (length : Nat) : Text := crlf.intercalate (head.lines length) ++ crlf ++ crlf

/-- A well-formed message: a header that declares the length of the body, and the body. -/
def wire (head : Head) (body : Text) : Bytes :=
  encode (head.text (encode body).length) ++ encode body

/-- Nothing but the length, as the clients themselves write. -/
def Head.bare : Head := ⟨[], [], by simp⟩

theorem frame_eq_wire (body : Text) : encode (frame body) = wire .bare body := by
  simp [frame, wire, Head.text, Head.bare, Head.lines, lengthLine, List.intercalate]

theorem lengthLine_line (length : Nat) : Line (lengthLine length) := by
  have hdigit : ∀ c, c.isDigit = false → c ∉ Nat.toDigits 10 length := by
    intro c hc hmem
    rw [Nat.isDigit_of_mem_toDigits (by omega) (by omega) hmem] at hc
    cases hc
  have hnotin : ∀ c, c.isDigit = false → c ∉ lengthName → c ≠ ' ' → c ∉ lengthLine length := by
    intro c hc hname hspace
    simp [lengthLine, hdigit c hc, hname, hspace]
  exact ⟨by simp [lengthLine], hnotin '\r' rfl (by decide) (by decide), hnotin '\n' rfl (by decide) (by decide)⟩

theorem Head.line_of_mem (head : Head) (length : Nat) {line : Text} (h : line ∈ head.lines length) :
    Line line := by
  simp only [Head.lines, List.mem_append, List.mem_cons] at h
  rcases h with h | rfl | h
  · exact (head.plain line (by simp [h])).toLine
  · exact lengthLine_line length
  · exact (head.plain line (by simp [h])).toLine

theorem Head.lines_ne_nil (head : Head) (length : Nat) : head.lines length ≠ [] := by
  simp [Head.lines]

/-- The length stands in one line of the header. -/
theorem Head.stripPrefix_lines (head : Head) {line : Text}
    (h : line ∈ head.before ++ head.after) : stripPrefix lengthName line = none := by
  unfold stripPrefix
  rw [if_neg]
  intro hstarts
  exact (head.plain line h).other (List.isPrefixOf_iff_prefix.mp hstarts)

theorem stripPrefix_lengthLine (length : Nat) :
    stripPrefix lengthName (lengthLine length) = some (' ' :: Nat.toDigits 10 length) := by
  rw [stripPrefix_eq_some]
  rfl

theorem trim_digits (length : Nat) :
    trim (' ' :: Nat.toDigits 10 length) = Nat.toDigits 10 length := by
  have hplain : ∀ c ∈ Nat.toDigits 10 length, isWhitespace c = false := by
    intro c hc
    have hdigit := Nat.isDigit_of_mem_toDigits (by omega) (by omega) hc
    simp only [Char.isDigit, Bool.and_eq_true, decide_eq_true_eq, UInt32.le_iff_toNat_le, ge_iff_le] at hdigit
    have hval : c.val.toNat = c.toNat := rfl
    rw [hval, show '0'.val.toNat = 48 from rfl, show '9'.val.toNat = 57 from rfl] at hdigit
    simp only [isWhitespace, Bool.or_eq_false_iff, Bool.and_eq_false_iff, decide_eq_false_iff_not]
    omega
  have hdrop (text : Text) (h : ∀ c ∈ text, isWhitespace c = false) : text.dropWhile isWhitespace = text := by
    cases text with
    | nil => rfl
    | cons c text => simp [List.dropWhile, h c (by simp)]
  unfold trim
  rw [List.dropWhile_cons_of_pos (by decide), hdrop _ hplain, hdrop _ (by simpa using hplain),
    List.reverse_reverse]

section reader

theorem linesFrom_field {line : Text} (hline : '\n' ∉ line) (rest : Text) :
    linesFrom [] (line ++ crlf ++ rest) = line :: linesFrom [] rest := by
  rw [List.append_assoc, linesFrom_append hline, List.nil_append]
  exact linesFrom_crlf line rest

/-- The lines of a header are its fields and a blank one. -/
theorem lines_fields {fields : List Text} (h : ∀ line ∈ fields, Line line) :
    lines (fields.flatMap (· ++ crlf) ++ crlf) = fields ++ [[]] := by
  unfold lines
  induction fields with
  | nil => decide
  | cons line fields ih =>
    rw [List.flatMap_cons, List.append_assoc, List.append_assoc, ← List.append_assoc line,
      linesFrom_field (h line (by simp)).noFeed, ih (fun l hl => h l (by simp [hl])), List.cons_append]

theorem intercalate_crlf {fields : List Text} (h : fields ≠ []) :
    crlf.intercalate fields ++ crlf = fields.flatMap (· ++ crlf) := by
  induction fields with
  | nil => exact absurd rfl h
  | cons line fields ih =>
    cases fields with
    | nil => simp [List.intercalate]
    | cons next fields =>
      have htail := ih (by simp)
      rw [List.flatMap_cons, ← htail]
      simp [List.intercalate]

theorem Head.text_eq (head : Head) (length : Nat) :
    head.text length = (head.lines length).flatMap (· ++ crlf) ++ crlf := by
  rw [Head.text, intercalate_crlf (head.lines_ne_nil length)]

/-- The reader goes by the length of the body. -/
theorem declaredLength_head (head : Head) {length : Nat} (h : length < 2 ^ 64) :
    declaredLength (encode (head.text length)) = .ok length := by
  have hfind : (head.lines length ++ [[]]).findSome? (stripPrefix lengthName)
      = some (' ' :: Nat.toDigits 10 length) := by
    have hbefore : head.before.findSome? (stripPrefix lengthName) = none :=
      List.findSome?_eq_none_iff.mpr fun line hline => head.stripPrefix_lines (by simp [hline])
    simp [Head.lines, List.findSome?_append, hbefore, stripPrefix_lengthLine]
  simp only [declaredLength, fromUtf8_encode, Head.text_eq,
    lines_fields (fun line hline => head.line_of_mem length hline), hfind, trim_digits,
    parseUsize_toDigits h]

/-- A line that has no feed in it is encoded without the byte of one. -/
theorem feed_notin {line : Text} (h : '\n' ∉ line) : (10 : UInt8) ∉ encode line :=
  fun hmem => h (mem_of_mem_encode (by decide) hmem)

theorem return_notin {line : Text} (h : '\r' ∉ line) : (13 : UInt8) ∉ encode line :=
  fun hmem => h (mem_of_mem_encode (by decide) hmem)

theorem encode_crlf : encode crlf = [13, 10] := by decide

theorem encode_ne_nil {line : Text} (h : line ≠ []) : encode line ≠ [] := by
  cases line with
  | nil => exact absurd rfl h
  | cons c line => simp [encode_cons, utf8EncodeChar_ne_nil]

/-- A header does not end after a line with something in it. -/
theorem not_blank_after {line : Text} (h : Line line) (header : Bytes) :
    ¬ blankLine <:+ header ++ (encode line ++ [13, 10]) := by
  obtain ⟨init, last, hlast⟩ : ∃ init last, encode line = init ++ [last] :=
    ⟨_, _, (List.dropLast_append_getLast (encode_ne_nil h.nonempty)).symm⟩
  have hne : last ≠ 10 := by
    rintro rfl
    exact feed_notin h.noFeed (by simp [hlast])
  rintro ⟨front, hfront⟩
  have hsplit : (front ++ [13, 10]) ++ [13, 10] = (header ++ (init ++ [last])) ++ [13, 10] := by
    simpa [blankLine, hlast, List.append_assoc] using hfront
  have hcut := List.append_cancel_right hsplit
  have : (10 : UInt8) = last := by
    have := congrArg List.getLast? hcut
    simpa [← List.append_assoc] using this
  exact hne this.symm

/-- Field by field the reader comes to the blank line. -/
theorem readHeader_delivers {fields : List Text} (h : ∀ line ∈ fields, Line line) (fuel : Nat)
    (hfuel : fields.length < fuel) (header rest : Bytes) (input : PipedInput)
    (hheader : fields = [] → [13, 10] <:+ header)
    (hinput : input.Delivers (encode (fields.flatMap (· ++ crlf) ++ crlf) ++ rest)) :
    ∃ input' : PipedInput, input'.Delivers rest ∧ readHeader fuel header input
      = .ok (some (header ++ encode (fields.flatMap (· ++ crlf) ++ crlf), input')) := by
  induction fields generalizing fuel header input with
  | nil =>
    obtain ⟨front, rfl⟩ := hheader rfl
    cases fuel with
    | zero => omega
    | succ fuel =>
      rw [List.flatMap_nil, List.nil_append, encode_crlf] at hinput ⊢
      obtain ⟨input', hrest, hread⟩ :=
        @Source.Delivers.readUntil UInt8 String _ input 10 [13] rest hinput (by decide)
      refine ⟨input', hrest, ?_⟩
      have hblank : blankLine <:+ front ++ [13, 10] ++ ([13] ++ [10]) := ⟨front, by simp [blankLine]⟩
      simp only [readHeader, hread, List.cons_append, List.nil_append] at hblank ⊢
      rw [if_pos hblank]
  | cons line fields ih =>
    cases fuel with
    | zero => omega
    | succ fuel =>
      have hline := h line (by simp)
      have hsplit : encode ((line :: fields).flatMap (· ++ crlf) ++ crlf)
          = (encode line ++ [13]) ++ 10 :: encode (fields.flatMap (· ++ crlf) ++ crlf) := by
        simp [List.flatMap_cons, encode_crlf, List.append_assoc]
      rw [hsplit, List.append_assoc, List.cons_append] at hinput
      obtain ⟨input', hrest, hread⟩ := Source.Delivers.readUntil hinput (by
        simp only [List.mem_append, List.mem_singleton, not_or]
        exact ⟨feed_notin hline.noFeed, by decide⟩)
      have hnonempty : encode line ++ [13] ++ [10] ≠ [] := by simp
      obtain ⟨byte, taken, htaken⟩ := List.exists_cons_of_ne_nil hnonempty
      have hstep : readHeader (fuel + 1) header input
          = readHeader fuel (header ++ (encode line ++ [13] ++ [10])) input' := by
        simp only [readHeader, hread, htaken]
        rw [if_neg]
        rw [← htaken, List.append_assoc (encode line)]
        exact not_blank_after hline header
      obtain ⟨input'', hdelivers, hheader'⟩ := ih (fun l hl => h l (by simp [hl])) fuel
        (by simpa using hfuel) (header ++ (encode line ++ [13] ++ [10])) input'
        (fun _ => ⟨header ++ encode line, by simp⟩) hrest
      refine ⟨input'', hdelivers, ?_⟩
      rw [hstep, hheader', hsplit]
      simp [List.append_assoc]

/-- A well-formed message is cut off whole, in whatever pieces it arrives. -/
theorem readMessage_delivers {input : PipedInput} {head : Head} {body : Text} {rest : Bytes}
    (hfits : (encode body).length < 2 ^ 64) (hinput : input.Delivers (wire head body ++ rest)) :
    ∃ input' : PipedInput, input'.Delivers rest ∧
      readMessage input = .ok (some (wire head body, input')) := by
  have hlength := hinput.length_le
  rw [wire, head.text_eq, List.append_assoc] at hinput
  have hfuel : (head.lines (encode body).length).length < input.size + 1 := by
    have hfields : ∀ fields : List Text, fields.length ≤ (encode (fields.flatMap (· ++ crlf))).length := by
      intro fields
      induction fields with
      | nil => simp
      | cons line fields ih =>
        simp only [List.flatMap_cons, List.length_cons, encode_append, List.length_append, encode_crlf]
        simp only [List.length_nil]
        omega
    have hcount := hfields (head.lines (encode body).length)
    rw [wire, head.text_eq, List.append_assoc] at hlength
    simp only [encode_append, List.length_append] at hlength
    have hroom := (Nat.le_add_right _ _).trans ((Nat.le_add_right _ _).trans hlength)
    exact Nat.lt_succ_of_le (hcount.trans hroom)
  obtain ⟨input₁, hbody, hheader⟩ := readHeader_delivers (fun line hline => head.line_of_mem _ hline)
    (input.size + 1) hfuel [] (encode body ++ rest) input (fun h => absurd h (head.lines_ne_nil _)) hinput
  obtain ⟨input₂, hrest, hexact⟩ := hbody.readExact "the peer closed mid-frame"
  refine ⟨input₂, hrest, ?_⟩
  have hdeclared := declaredLength_head head hfits
  rw [head.text_eq] at hdeclared
  simp only [readMessage, hheader, bind, Except.bind, List.nil_append, hdeclared, hexact, pure, Except.pure]
  rw [wire, head.text_eq]

end reader

section parser

theorem findHeadersEnd_skip {front : Bytes} (h : (13 : UInt8) ∉ front) (rest : Bytes) :
    findHeadersEnd (front ++ rest) = (findHeadersEnd rest).map (· + front.length) := by
  induction front with
  | nil => simp
  | cons byte front ih =>
    have hbyte : byte ≠ 13 := by
      rintro rfl
      simp at h
    have hprefix : ¬ blankLine <+: byte :: (front ++ rest) := by
      rintro ⟨more, hmore⟩
      simp only [blankLine, List.cons_append, List.cons.injEq] at hmore
      exact hbyte hmore.1.symm
    rw [List.cons_append, findHeadersEnd, if_neg hprefix, ih (fun hmem => h (by simp [hmem]))]
    cases findHeadersEnd rest with
    | none => rfl
    | some n =>
      simp
      omega

/-- The first blank line ends the header. -/
theorem findHeadersEnd_fields {fields : List Text} (hne : fields ≠ []) (h : ∀ line ∈ fields, Line line)
    (rest : Bytes) :
    findHeadersEnd (encode (crlf.intercalate fields) ++ (blankLine ++ rest))
      = some (encode (crlf.intercalate fields)).length := by
  induction fields with
  | nil => exact absurd rfl hne
  | cons line fields ih =>
    have hline := h line (by simp)
    cases fields with
    | nil =>
      have hfound : findHeadersEnd (blankLine ++ rest) = some 0 := by
        simp [blankLine, findHeadersEnd]
      have hone : crlf.intercalate [line] = line := by simp [List.intercalate]
      rw [hone, findHeadersEnd_skip (return_notin hline.noReturn), hfound]
      simp
    | cons next fields =>
      have hnext := h next (by simp)
      have htail := ih (by simp) (fun l hl => h l (by simp [hl]))
      have hsplit : crlf.intercalate (line :: next :: fields)
          = line ++ (crlf ++ crlf.intercalate (next :: fields)) := by
        simp [List.intercalate]
      obtain ⟨byte, more, hmore⟩ : ∃ byte more,
          encode (crlf.intercalate (next :: fields)) = byte :: more ∧ byte ≠ 13 := by
        obtain ⟨c, cs, hc⟩ := List.exists_cons_of_ne_nil (encode_ne_nil hnext.nonempty)
        have hstart : ∃ tail, crlf.intercalate (next :: fields) = next ++ tail := by
          cases fields with
          | nil => exact ⟨[], by simp [List.intercalate]⟩
          | cons l ls => exact ⟨crlf ++ crlf.intercalate (l :: ls), by simp [List.intercalate]⟩
        obtain ⟨tail, htail'⟩ := hstart
        refine ⟨c, cs ++ encode tail, by rw [htail', encode_append, hc]; rfl, ?_⟩
        rintro rfl
        exact return_notin hnext.noReturn (by simp [hc])
      have hreturn : ¬ blankLine <+: 13 :: 10 :: (encode (crlf.intercalate (next :: fields)) ++ (blankLine ++ rest)) := by
        rintro ⟨after, hafter⟩
        rw [hmore.1] at hafter
        simp only [blankLine, List.cons_append, List.cons.injEq, true_and] at hafter
        exact hmore.2 hafter.1.symm
      have hfeed : ¬ blankLine <+: 10 :: (encode (crlf.intercalate (next :: fields)) ++ (blankLine ++ rest)) := by
        rintro ⟨after, hafter⟩
        simp only [blankLine, List.cons_append, List.cons.injEq] at hafter
        exact absurd hafter.1 (by decide)
      rw [hsplit, encode_append, encode_append, encode_crlf, List.append_assoc,
        findHeadersEnd_skip (return_notin hline.noReturn)]
      simp only [List.cons_append, List.nil_append, findHeadersEnd, if_neg hreturn, if_neg hfeed, htail,
        Option.map_some, List.length_append, List.length_cons]
      congr 1
      omega

theorem splitCrlf_line {line : Text} (h : Line line) (rest : Text) :
    splitCrlf (line ++ (crlf ++ rest)) = line :: splitCrlf rest := by
  obtain ⟨-, hreturn, -⟩ := h
  induction line with
  | nil => simp [crlf, splitCrlf]
  | cons c line ih =>
    have hc : c ≠ '\r' := by
      rintro rfl
      simp at hreturn
    rw [List.cons_append, splitCrlf.eq_3 _ _ (by rintro _ rfl; exact absurd rfl hc),
      ih (fun hmem => hreturn (by simp [hmem]))]

theorem splitCrlf_last {line : Text} (h : '\r' ∉ line) : splitCrlf line = [line] := by
  induction line with
  | nil => rfl
  | cons c line ih =>
    have hc : c ≠ '\r' := by
      rintro rfl
      simp at h
    rw [splitCrlf.eq_3 _ _ (by rintro _ rfl; exact absurd rfl hc), ih (fun hmem => h (by simp [hmem]))]

theorem splitCrlf_fields {fields : List Text} (hne : fields ≠ []) (h : ∀ line ∈ fields, Line line) :
    splitCrlf (crlf.intercalate fields) = fields := by
  induction fields with
  | nil => exact absurd rfl hne
  | cons line fields ih =>
    have hline := h line (by simp)
    cases fields with
    | nil =>
      have hone : crlf.intercalate [line] = line := by simp [List.intercalate]
      rw [hone, splitCrlf_last hline.noReturn]
    | cons next fields =>
      have hsplit : crlf.intercalate (line :: next :: fields)
          = line ++ (crlf ++ crlf.intercalate (next :: fields)) := by
        simp [List.intercalate]
      rw [hsplit, splitCrlf_line hline, ih (by simp) (fun l hl => h l (by simp [hl]))]

/-- The parser goes by the length of the body, as the reader does. -/
theorem frameLength_head (head : Head) {length : Nat} (h : length < 2 ^ 64) :
    frameLength (crlf.intercalate (head.lines length)) = some length := by
  have hskip : ∀ (fields : List Text) (found : Option Nat),
      (∀ line ∈ fields, stripPrefix lengthName line = none) →
      fields.foldl (fun found header =>
        match stripPrefix lengthName header with
        | some value => (parseUsize (trim value)).toOption
        | none => found) found = found := by
    intro fields
    induction fields with
    | nil => intro found _; rfl
    | cons line fields ih =>
      intro found hnone
      rw [List.foldl_cons, hnone line (by simp)]
      exact ih found (fun l hl => hnone l (by simp [hl]))
  rw [frameLength, splitCrlf_fields (head.lines_ne_nil length) (fun line hline => head.line_of_mem length hline),
    Head.lines, List.foldl_append, List.foldl_cons,
    hskip head.before _ (fun line hline => head.stripPrefix_lines (by simp [hline])),
    stripPrefix_lengthLine]
  simp only [trim_digits, parseUsize_toDigits h]
  exact hskip head.after _ (fun line hline => head.stripPrefix_lines (by simp [hline]))

/-- The parser finds the body of a well-formed message, and its end. -/
theorem cutFrame_wire (head : Head) (body : Text) (rest : Bytes)
    (hfits : (wire head body).length < 2 ^ 64) :
    cutFrame (wire head body ++ rest) 0 = .body body (wire head body).length := by
  have hbody : (encode body).length < 2 ^ 64 := by
    simp only [wire, List.length_append] at hfits
    omega
  have hwire : wire head body
      = encode (crlf.intercalate (head.lines (encode body).length)) ++ (blankLine ++ encode body) := by
    simp [wire, Head.text, encode_crlf, blankLine, List.append_assoc]
  have hend := findHeadersEnd_fields (head.lines_ne_nil (encode body).length)
    (fun line hline => head.line_of_mem _ hline) (encode body ++ rest)
  generalize hheader : encode (crlf.intercalate (head.lines (encode body).length)) = header at hwire hend
  have hsize : (wire head body).length = header.length + 4 + (encode body).length := by
    rw [hwire]
    simp [blankLine]
    omega
  have htake : (wire head body ++ rest).take header.length = header := by
    rw [hwire, List.append_assoc, List.take_left]
  have hcut : ((wire head body ++ rest).take (wire head body).length).drop (header.length + 4) = encode body := by
    rw [List.take_left, hwire, ← List.append_assoc]
    exact List.drop_left' (by simp [blankLine])
  unfold cutFrame
  simp only [List.drop_zero]
  rw [show findHeadersEnd (wire head body ++ rest) = some header.length by
    rw [hwire, List.append_assoc, List.append_assoc]
    exact hend]
  simp only [htake]
  rw [← hheader, fromUtf8Lossy_encode, frameLength_head head hbody]
  simp only [hheader, ← hsize]
  rw [if_neg (by omega), if_neg (by simp), hcut, fromUtf8Lossy_encode, Nat.zero_add]

end parser

/-- A message a peer sends: its header, its body, and the value of the body. -/
structure Message {ν : Type} (fromStr : Text → Except String ν) where
  head : Head
  body : Text
  value : ν
  parses : fromStr body = .ok value
  fits : (wire head body).length < 2 ^ 64

section
variable {ν : Type} {fromStr : Text → Except String ν}

def Message.bytes (message : Message fromStr) : Bytes := wire message.head message.body

/-- Every message has a byte in it. -/
theorem Message.one_le_length (message : Message fromStr) : 1 ≤ message.bytes.length := by
  simp [Message.bytes, wire, Head.text, encode_append, encode_crlf]
  omega

theorem length_le_bytes (messages : List (Message fromStr)) :
    messages.length ≤ (messages.flatMap Message.bytes).length := by
  induction messages with
  | nil => simp
  | cons message messages ih =>
    have := message.one_le_length
    simp only [List.flatMap_cons, List.length_cons, List.length_append]
    omega

theorem Message.readMessage (message : Message fromStr) {input : PipedInput} {rest : Bytes}
    (hinput : input.Delivers (message.bytes ++ rest)) :
    ∃ input' : PipedInput, input'.Delivers rest ∧
      Rpc.readMessage input = .ok (some (message.bytes, input')) := by
  have hfits : (encode message.body).length < 2 ^ 64 := by
    have := message.fits
    simp only [wire, List.length_append] at this
    omega
  exact readMessage_delivers hfits hinput

theorem Message.cutFrame (message : Message fromStr) :
    Rpc.cutFrame message.bytes 0 = .body message.body message.bytes.length := by
  have hcut := cutFrame_wire message.head message.body [] message.fits
  rwa [List.append_nil] at hcut

end

end SupraHarness.Rpc
