import SupraHarness.Ansi.Chunking
import SupraHarness.Ansi.Truncate
import SupraHarness.Ansi.Writer

/-!
# Stripping

`strip` copies the text runs of a line and the whitespace that the scanner reports as controls.
What is left is text throughout: a byte that was text after some other byte is text after any
text, because a text run can only owe more continuation bytes than it did.
-/
namespace SupraHarness.Ansi

/-- What one token adds to the output. -/
def stripToken (bytes : List UInt8) (w : Writer) (token : Token) : Writer :=
  if token.kind = .text then w.literal (textOf bytes token)
  else if token.kind = .control ∧ isTextControl token.finalByte then w.byte token.finalByte
  else w

/-- `supra_ansi_strip`; what it returns is `written`. -/
def strip (bytes : List UInt8) (null : Bool) (cap : Nat) : Option Writer :=
  if bytes = [] then some (Writer.start null cap)
  else (forEachToken bytes).map fun tokens => tokens.foldl (stripToken bytes) (Writer.start null cap)

/-- A buffer after the stores of a writer. -/
def Writer.fill (w : Writer) (buffer : List UInt8) : List UInt8 :=
  w.stores.foldl (fun buffer store => buffer.set store.2 store.1) buffer

/-- What the wrapper `strip` appends: it asks for the size, and passes a buffer of that size. -/
def stripped (bytes : List UInt8) : Option (List UInt8) := do
  let asked ← strip bytes true 0
  let needed := asked.written
  if needed = 0 then return []
  let w ← strip bytes false needed
  return (w.fill (List.replicate needed 0)).take (min w.written needed)

/-! ## What is kept -/

/-- A text run, or a byte of whitespace. -/
def kept (bytes : List UInt8) (token : Token) : List UInt8 :=
  if token.kind = .text then textOf bytes token
  else if token.kind = .control ∧ isTextControl token.finalByte then [token.finalByte]
  else []

/-- The bytes that are kept of a token. -/
def keptSize (token : Token) : Nat :=
  if token.kind = .text then token.length
  else if token.kind = .control ∧ isTextControl token.finalByte then 1
  else 0

variable {bytes rest : List UInt8} {tokens : List Token} {pos : Nat} {seq : Sequence}

theorem foldl_stripToken (bytes : List UInt8) (tokens : List Token) (w : Writer) :
    tokens.foldl (stripToken bytes) w = w.literal (tokens.flatMap (kept bytes)) := by
  induction tokens generalizing w with
  | nil => rfl
  | cons token tokens ih =>
    rw [List.foldl_cons, ih, List.flatMap_cons, Writer.literal_append, stripToken, kept]
    split_ifs <;> rfl

theorem strip_eq (h : Lexes 0 Sequence.zero bytes tokens) (null : Bool) (cap : Nat) :
    strip bytes null cap = some ((Writer.start null cap).literal (tokens.flatMap (kept bytes))) := by
  rw [strip]
  split
  · rename_i hnil
    subst hnil
    cases h with
    | done => rfl
    | stuck hne _ => exact absurd rfl hne
    | token hloop _ => cases hloop
  · rw [forEachToken_eq h, Option.map_some, foldl_stripToken]

/-- Storing a text at the places that are left of a buffer. -/
theorem foldl_set_zipIdx (front text : List UInt8) :
    (text.zipIdx front.length).foldl (fun buffer store => buffer.set store.2 store.1)
      (front ++ List.replicate text.length 0) = front ++ text := by
  induction text generalizing front with
  | nil => rfl
  | cons byte text ih =>
    have hset : (front ++ List.replicate (byte :: text).length 0).set front.length byte =
        (front ++ [byte]) ++ List.replicate text.length 0 := by
      rw [List.length_cons, List.replicate_succ, List.set_append_right _ _ (Nat.le_refl _)]
      simp
    have hrest := ih (front ++ [byte])
    rw [List.length_append, List.length_singleton] at hrest
    rw [List.zipIdx_cons, List.foldl_cons, hset, hrest, List.append_assoc]
    rfl

theorem stripped_eq (h : Lexes 0 Sequence.zero bytes tokens) :
    stripped bytes = some (tokens.flatMap (kept bytes)) := by
  simp only [stripped, strip_eq h]
  generalize tokens.flatMap (kept bytes) = text
  have hwritten : ∀ null cap, ((Writer.start null cap).literal text).written = text.length := by
    intro null cap
    rw [Writer.written_literal]
    exact Nat.zero_add _
  have hfill : ((Writer.start false text.length).literal text).fill (List.replicate text.length 0) = text := by
    rw [Writer.fill, Writer.stores_start, List.take_length]
    exact foldl_set_zipIdx [] text
  simp only [Option.bind_eq_bind, Option.bind_some, hwritten, hfill, Nat.min_self, List.take_length]
  split_ifs with hzero
  · rw [List.eq_nil_of_length_eq_zero hzero]
    rfl
  · rfl

/-- A coloured word, a bell and a tab. -/
example : stripped [0x1B, 0x5B, 0x33, 0x31, 0x6D, 0x61, 0x62, 0x07, 0x09] = some [0x61, 0x62, 0x09] := by decide +kernel

/-! ## Text throughout -/

/-- Every byte is text where it stands, when `e` continuation bytes are owed in front of the first. -/
def AllText : Nat → List UInt8 → Prop
  | _, [] => True
  | e, byte :: rest => (midCharacter e byte = true ∨ stopsText byte = false) ∧ AllText (nextExpect e byte) rest

theorem allText_mono {e e' : Nat} (hle : e ≤ e') {l : List UInt8} (h : AllText e l) : AllText e' l := by
  induction l generalizing e e' with
  | nil => trivial
  | cons byte rest ih =>
    refine ⟨?_, ih (nextExpect_mono hle byte) h.2⟩
    rcases h.1 with hm | hs
    · exact .inl (midCharacter_mono hle hm)
    · exact .inr hs

theorem allText_append {e : Nat} {l l' : List UInt8} (h : AllText e l) (h' : AllText 0 l') : AllText e (l ++ l') := by
  induction l generalizing e with
  | nil => exact allText_mono (Nat.zero_le e) h'
  | cons byte rest ih => exact ⟨h.1, ih h.2⟩

theorem allText_flatMap {α : Type} (l : List α) (f : α → List UInt8) (h : ∀ a ∈ l, AllText 0 (f a)) :
    AllText 0 (l.flatMap f) := by
  induction l with
  | nil => trivial
  | cons a l ih =>
    rw [List.forall_mem_cons] at h
    exact allText_append h.1 (ih h.2)

/-- What the text loop consumes is text. -/
theorem allText_textRun (e : Nat) (l : List UInt8) : AllText e (l.take (textRun e l).1) := by
  induction l generalizing e with
  | nil => trivial
  | cons byte rest ih =>
    rw [textRun]
    by_cases hm : midCharacter e byte = true
    · rw [if_pos hm, List.take_succ_cons]
      refine ⟨.inl hm, ?_⟩
      rw [nextExpect, if_pos hm]
      exact ih _
    · rw [if_neg hm]
      by_cases hs : stopsText byte = true
      · rw [if_pos hs]
        trivial
      · rw [if_neg hs, List.take_succ_cons]
        refine ⟨.inr (by simpa using hs), ?_⟩
        rw [nextExpect, if_neg hm]
        exact ih _

/-- The text loop consumes all of it. -/
theorem textRun_allText {e : Nat} {l : List UInt8} (h : AllText e l) : (textRun e l).1 = l.length := by
  induction l generalizing e with
  | nil => rfl
  | cons byte rest ih =>
    have hrest := ih h.2
    rw [textRun]
    by_cases hm : midCharacter e byte = true
    · rw [nextExpect, if_pos hm] at hrest
      simp only [if_pos hm, List.length_cons, hrest]
    · have hs := h.1.resolve_left hm
      rw [nextExpect, if_neg hm] at hrest
      simp only [if_neg hm, hs, List.length_cons, if_neg Bool.false_ne_true, hrest]

theorem control_stops {byte : UInt8} (h : byte < 0x20 ∨ byte = 0x7F) (ht : ¬ isTextControl byte = true) :
    isContinuation byte = false ∧ stopsText byte = true := by
  rw [isTextControl_iff] at ht
  rw [stopsText_iff, ← Bool.not_eq_true, isContinuation_iff]
  simp only [UInt8.le_iff_toNat_le, UInt8.lt_iff_toNat_lt, ← UInt8.toNat_inj, UInt8.reduceToNat] at h ⊢
  omega

/-- Text has no control byte but newline and tab; a C1 byte in it continues a character. -/
theorem control_of_allText {e : Nat} {l : List UInt8} (h : AllText e l) :
    ∀ byte ∈ l, byte < 0x20 ∨ byte = 0x7F → isTextControl byte = true := by
  induction l generalizing e with
  | nil => nofun
  | cons first rest ih =>
    refine List.forall_mem_cons.2 ⟨fun hc => ?_, ih h.2⟩
    by_contra ht
    obtain ⟨hm, hs⟩ := control_stops hc ht
    rcases h.1 with h | h
    · rw [midCharacter, hm, Bool.and_false] at h
      cases h
    · rw [hs] at h
      cases h

/-- Text is scanned as one run. -/
theorem lexes_allText {l : List UInt8} (h : AllText 0 l) (hne : l ≠ []) :
    Lexes 0 Sequence.zero l [emitSimple .text 0 l.length 0] := by
  obtain ⟨byte, rest, rfl⟩ := List.exists_cons_of_ne_nil hne
  have hstarts : startsText 0 byte = true := by
    rw [startsText_eq]
    rcases h.1 with hm | hs
    · simp [hm]
    · simp [hs]
  apply Lexes.token
  · rw [scanLoop, if_pos ⟨rfl, hstarts⟩]
    simp only [Scanner.between, textRun_allText h]
    rfl
  · have hdrop : (byte :: rest).drop (byte :: rest).length = [] := List.drop_length
    simp only [emitSimple, emit, hdrop]
    exact .done

/-- What is kept of every token of a line is text. -/
theorem Lexes.allText_kept (h : Lexes pos seq rest tokens) (hrest : bytes.drop pos = rest) :
    ∀ token ∈ tokens, AllText 0 (kept bytes token) := by
  induction h with
  | done => nofun
  | stuck hne hloop => simp [kept, emit, AllText]
  | token hloop hmore ih =>
    rename_i pos seq rest sc token tokens
    refine List.forall_mem_cons.2 ⟨?_, ih (by rw [← hrest, List.drop_drop])⟩
    have htext := (Lexes.token hloop hmore).textOf hrest rfl
    unfold kept
    split_ifs with hkind hcontrol
    · rw [htext, (text_between hloop hkind).1]
      exact allText_textRun 0 rest
    · refine ⟨.inr ?_, trivial⟩
      have hbyte := (isTextControl_iff _).1 hcontrol.2
      rw [← Bool.not_eq_true, stopsText_iff]
      omega
    · trivial

theorem Lexes.length_kept (h : Lexes pos seq rest tokens) (hrest : bytes.drop pos = rest) :
    (tokens.flatMap (kept bytes)).length = (tokens.map keptSize).sum := by
  induction h with
  | done => rfl
  | stuck hne hloop => simp [kept, keptSize, emit]
  | token hloop hmore ih =>
    rename_i pos seq rest sc token tokens
    have htext := (Lexes.token hloop hmore).textOf hrest rfl
    have hlen : (Ansi.textOf bytes token).length = token.length := by
      rw [htext, List.length_take, Nat.min_eq_left (token_between hloop).2.1]
    rw [List.flatMap_cons, List.length_append, List.map_cons, List.sum_cons,
      ih (by rw [← hrest, List.drop_drop]), kept, keptSize]
    split_ifs <;> simp [hlen]

/-! ## The results -/

/-- What is left of a line is its text runs and permitted whitespace. Scanned again it is text and
nothing else, without a control byte but newline and tab, and stripping it changes nothing. -/
theorem stripped_text (bytes : List UInt8) :
    ∃ tokens out, forEachToken bytes = some tokens ∧ stripped bytes = some out ∧
      out = tokens.flatMap (kept bytes) ∧
      (∃ again, forEachToken out = some again ∧ ∀ token ∈ again, token.kind = .text) ∧
      (∀ byte ∈ out, byte < 0x20 ∨ byte = 0x7F → isTextControl byte = true) ∧
      stripped out = some out := by
  obtain ⟨tokens, hlex⟩ := exists_lexes 0 Sequence.zero bytes
  have htext := allText_flatMap tokens (kept bytes) (hlex.allText_kept List.drop_zero)
  refine ⟨tokens, _, forEachToken_eq hlex, stripped_eq hlex, rfl, ?_⟩
  generalize tokens.flatMap (kept bytes) = out at htext
  have hcontrol := control_of_allText htext
  by_cases hne : out = []
  · subst hne
    exact ⟨⟨[], forEachToken_eq .done, nofun⟩, hcontrol, stripped_eq .done⟩
  · have hagain := lexes_allText htext hne
    refine ⟨⟨_, forEachToken_eq hagain, List.forall_mem_singleton.2 rfl⟩, hcontrol, ?_⟩
    rw [stripped_eq hagain, Option.some_inj, List.flatMap_singleton]
    simp [kept, textOf, emitSimple, emit]

/-- Both functions store what they count as they go, so that a capacity that is neither 0 nor
sufficient leaves a part of the text in the buffer. -/
theorem strip_and_styleEmit_contract (bytes : List UInt8) (style : Style) (null : Bool) (cap : Nat) :
    (∃ tokens w, forEachToken bytes = some tokens ∧ strip bytes null cap = some w ∧
      (Contract (tokens.flatMap (kept bytes)) null cap w ↔
        null = true ∨ cap = 0 ∨ (tokens.map keptSize).sum ≤ cap)) ∧
    (Contract style.emit null cap (styleEmit style null cap) ↔
      null = true ∨ cap = 0 ∨ style.size ≤ cap) := by
  constructor
  · obtain ⟨tokens, hlex⟩ := exists_lexes 0 Sequence.zero bytes
    refine ⟨tokens, _, forEachToken_eq hlex, strip_eq hlex null cap, ?_⟩
    rw [contract_iff, hlex.length_kept List.drop_zero]
  · rw [styleEmit_eq, contract_iff, length_emit]

/-- Two bytes of text and a buffer for one, and a bold style and a buffer for two. -/
theorem short_buffer_written :
    (∃ w, strip [0x61, 0x62] false 1 = some w ∧ 1 < w.written ∧ w.stores = [(0x61, 0)]) ∧
      2 < (styleEmit (Style.default.set .bold) false 2).written ∧
      (styleEmit (Style.default.set .bold) false 2).stores = [(0x1B, 0), (0x5B, 1)] :=
  ⟨⟨⟨false, 1, 2, [(0x61, 0)]⟩, by decide +kernel, by decide, rfl⟩, by decide, by decide⟩

end SupraHarness.Ansi
