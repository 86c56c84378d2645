import Mathlib.Algebra.GroupWithZero.Nat
import SupraHarness.Ansi.Chunking

/-!
# The output shaper

`Shaper` turns a pty stream into a transcript of lines: every read goes through the scanner, text
overwrites the open line from the cursor, and a newline commits the line into a bounded ring.
Everything but the scanner is the shaper's `Page`. The planner that cuts a line to its cells and
the width table are parameters. The page a stream leaves is a function of the items the stream
shows, so it is the same for every way of cutting a stream that is not torn.
-/
namespace SupraHarness.Shell

open SupraHarness.Ansi

inductive Ambiguous where
  | narrow | wide
  deriving DecidableEq, Repr

/-- A planned truncation. -/
structure Truncation where
  prefixLen : Nat
  wasTruncated : Bool
  deriving DecidableEq, Repr

/-- The open line. The cursor never stands past its end. -/
@[ext] structure OpenLine where
  bytes : List UInt8
  cursor : Nat
  cursor_le : cursor ≤ bytes.length
  deriving DecidableEq, Repr

def OpenLine.empty : OpenLine := ⟨[], 0, Nat.le_refl _⟩

/-- Overwrite from the cursor, extending the line when needed. -/
def OpenLine.writeAtCursor (line : OpenLine) (text : List UInt8) : OpenLine :=
  if line.cursor = line.bytes.length then
    ⟨line.bytes ++ text, (line.bytes ++ text).length, Nat.le_refl _⟩
  else
    let stop := line.cursor + text.length
    let bytes := if line.bytes.length < stop then
        line.bytes ++ List.replicate (stop - line.bytes.length) 0x20
      else line.bytes
    ⟨bytes.take line.cursor ++ text ++ bytes.drop stop, stop, by
      have := line.cursor_le
      have hb : stop ≤ bytes.length := by
        simp only [bytes]
        split_ifs
        · simp only [List.length_append, List.length_replicate]
          omega
        · omega
      simp only [List.length_append, List.length_take, List.length_drop, stop] at hb ⊢
      omega⟩

def OpenLine.home (line : OpenLine) : OpenLine := { line with cursor := 0, cursor_le := Nat.zero_le _ }

def OpenLine.left (line : OpenLine) : OpenLine :=
  { line with cursor := line.cursor - 1, cursor_le := Nat.le_trans (Nat.sub_le _ _) line.cursor_le }

/-- The shaper without its scanner. -/
structure Page where
  line : OpenLine
  ring : List (List UInt8)
  truncatedLines : Nat
  droppedLines : Nat
  maxLineCells : Nat
  maxLines : Nat
  ambiguous : Ambiguous
  finished : Bool
  deriving DecidableEq, Repr

structure Shaper extends Page where
  scanner : Scanner
  deriving DecidableEq, Repr

structure Shaped where
  lines : Nat
  cells : Nat
  truncatedLines : Nat
  droppedLines : Nat
  suggestsPrompt : Bool
  deriving DecidableEq, Repr

/-- A fresh page that cuts lines at `maxLineCells` cells and keeps the last `maxLines` of them. -/
def Page.new (maxLineCells maxLines : Nat) (ambiguous : Ambiguous) : Page where
  line := OpenLine.empty
  ring := []
  truncatedLines := 0
  droppedLines := 0
  maxLineCells := maxLineCells
  maxLines := maxLines
  ambiguous := ambiguous
  finished := false

def Shaper.new (maxLineCells maxLines : Nat) (ambiguous : Ambiguous) : Shaper :=
  { Page.new maxLineCells maxLines ambiguous with scanner := Scanner.init }

/-! ## Reading a page -/

def kNewline : UInt8 := 0x0A
def kReturn : UInt8 := 0x0D
def kBackspace : UInt8 := 0x08

def isAsciiWhitespace (byte : UInt8) : Bool :=
  byte == 0x20 || byte == 0x09 || byte == 0x0A || byte == 0x0C || byte == 0x0D

def trimAsciiEnd (bytes : List UInt8) : List UInt8 := (bytes.reverse.dropWhile isAsciiWhitespace).reverse

/-- The prompt heuristic: a short open line that ends in `$`, `>`, `#`, `%` or `:`. -/
def Page.suggestsPrompt (page : Page) : Bool :=
  let line := page.line.bytes
  if page.finished then false
  else if line.isEmpty || line.getLast? == some kNewline then false
  else if 16 < line.length then false
  else if line.getLast? == some 0x5C then false
  else match (trimAsciiEnd line).getLast? with
    | some byte => byte == 0x24 || byte == 0x3E || byte == 0x23 || byte == 0x25 || byte == 0x3A
    | none => false

/-- The committed lines joined by newlines, and the open line after a separator. -/
def Page.render (page : Page) : List UInt8 :=
  let out := List.intercalate [kNewline] page.ring
  if page.line.bytes.isEmpty then out
  else if page.ring.isEmpty then out ++ page.line.bytes
  else out ++ [kNewline] ++ page.line.bytes

section Planner

variable (planTruncate : List UInt8 → Nat → Ambiguous → Truncation)
variable (width : List UInt8 → Ambiguous → Nat)

def Page.stats (page : Page) : Shaped where
  lines := page.ring.length
  cells := (page.ring.map (width · page.ambiguous)).sum
  truncatedLines := page.truncatedLines
  droppedLines := page.droppedLines
  suggestsPrompt := page.suggestsPrompt

/-- Commit the open line into the ring, cut to the cell budget, and start a fresh one. -/
def Page.commitOpenLine (page : Page) : Page :=
  let line := page.line.bytes
  let page := { page with line := OpenLine.empty }
  if line.isEmpty then page
  else
    let truncation := planTruncate line page.maxLineCells page.ambiguous
    let page := if truncation.wasTruncated then { page with truncatedLines := page.truncatedLines + 1 }
      else page
    let kept := line.take truncation.prefixLen
    if page.maxLines = 0 then { page with droppedLines := page.droppedLines + 1 }
    else
      let page := if page.ring.length = page.maxLines then
          { page with ring := page.ring.tail, droppedLines := page.droppedLines + 1 }
        else page
      { page with ring := page.ring ++ [kept] }

def Page.writeAtCursor (page : Page) (text : List UInt8) : Page :=
  { page with line := page.line.writeAtCursor text }

/-- The loop over the newlines of a text run; `before` is what it has read of the current piece. -/
def Page.writeText (page : Page) (before : List UInt8) : List UInt8 → Page
  | [] => if before.isEmpty then page else page.writeAtCursor before
  | byte :: rest =>
    if byte = kNewline then
      let page := if before.isEmpty then page else page.writeAtCursor before
      Page.writeText (page.commitOpenLine planTruncate) [] rest
    else Page.writeText page (before ++ [byte]) rest

/-- The bytes a token covers, given the buffer it was scanned from. -/
def tokenText (token : Token) (buffer : List UInt8) : Option (List UInt8) :=
  let stop := token.offset + token.length
  if stop ≤ buffer.length then some ((buffer.drop token.offset).take token.length) else none

/-- Sequences carry styling, and other controls signal: neither shapes the transcript. -/
def Page.apply (bytes : List UInt8) (page : Page) (token : Token) : Page :=
  match token.kind with
  | .part | .malformed | .csi | .esc | .osc | .dcs | .apc => page
  | .control =>
    if token.finalByte = kNewline then page.commitOpenLine planTruncate
    else if token.finalByte = kReturn then { page with line := page.line.home }
    else if token.finalByte = kBackspace then { page with line := page.line.left }
    else page
  | .text =>
    match tokenText token bytes with
    | none => page
    | some text => page.writeText planTruncate [] text

end Planner

/-! ## Feeding a shaper -/

/-- The token iterator collected: it stops for good after the empty report of the end of a stream. -/
def tokens : Nat → Scanner → List UInt8 → Eof → Option (List Token × Scanner)
  | 0, _, _, _ => none
  | fuel + 1, sc, bytes, eof =>
    match scan sc bytes eof with
    | (sc, none) => some ([], sc)
    | (sc, some token) =>
      if token.length = 0 ∧ token.kind = .malformed then some ([token], sc)
      else (tokens fuel sc bytes eof).map fun r => (token :: r.1, r.2)

section Planner

variable (planTruncate : List UInt8 → Nat → Ambiguous → Truncation)
variable (width : List UInt8 → Ambiguous → Nat)

/-- One buffer scanned, and every token of it applied. -/
def Shaper.feed (s : Shaper) (bytes : List UInt8) (eof : Eof) : Option Shaper :=
  (tokens (bytes.length + 2) s.scanner bytes eof).map fun r =>
    { r.1.foldl (Page.apply planTruncate bytes) s.toPage with scanner := r.2 }

/-- Feed one chunk of the stream; a no-op after `finish`. -/
def Shaper.push (s : Shaper) (bytes : List UInt8) : Option Shaper :=
  if s.finished then some s else s.feed planTruncate bytes .more

/-- Close the stream: the last line commits. -/
def Shaper.finish (s : Shaper) : Option (Shaper × Shaped) :=
  let closed := if s.finished then some s
    else (s.feed planTruncate [] .final).map fun s => { s with finished := true }
  closed.map fun s =>
    let s := { s with toPage := s.toPage.commitOpenLine planTruncate }
    (s, s.toPage.stats width)

def Shaper.pushAll (s : Shaper) : List (List UInt8) → Option Shaper
  | [] => some s
  | bytes :: reads =>
    match s.push planTruncate bytes with
    | none => none
    | some s => Shaper.pushAll s reads

/-- What a consumer gets from a finished shaper. -/
structure Transcript where
  page : Page
  shaped : Shaped
  rendered : List UInt8
  deriving DecidableEq, Repr

/-- The transcript of a stream that was read in these pieces. -/
def transcript (maxLineCells maxLines : Nat) (ambiguous : Ambiguous) (reads : List (List UInt8)) :
    Option Transcript :=
  match (Shaper.new maxLineCells maxLines ambiguous).pushAll planTruncate reads with
  | none => none
  | some s => (s.finish planTruncate width).map fun r => ⟨r.1.toPage, r.2, r.1.toPage.render⟩

end Planner

/-! ## Byte by byte -/

theorem writeAtCursor_cursor (line : OpenLine) (text : List UInt8) :
    (line.writeAtCursor text).cursor = line.cursor + text.length := by
  unfold OpenLine.writeAtCursor
  split_ifs with h
  · simp [h]
  · rfl

theorem writeAtCursor_bytes (line : OpenLine) (text : List UInt8) :
    (line.writeAtCursor text).bytes =
      line.bytes.take line.cursor ++ text ++ line.bytes.drop (line.cursor + text.length) := by
  have hle := line.cursor_le
  unfold OpenLine.writeAtCursor
  split_ifs with h
  · simp [h]
  · simp only
    split_ifs with hlt
    · have hpad : line.bytes.length + (line.cursor + text.length - line.bytes.length) ≤
          line.cursor + text.length := by omega
      rw [List.take_append_of_le_length hle, List.drop_eq_nil_of_le (by simpa using hpad),
        List.drop_eq_nil_of_le (Nat.le_of_lt hlt)]
    · rfl

theorem writeAtCursor_nil (line : OpenLine) : line.writeAtCursor [] = line := by
  ext1
  · rw [writeAtCursor_bytes, List.append_nil, List.length_nil, Nat.add_zero, List.take_append_drop]
  · rw [writeAtCursor_cursor, List.length_nil, Nat.add_zero]

/-- A run written in two pieces is the run written at once. -/
theorem writeAtCursor_append (line : OpenLine) (a b : List UInt8) :
    line.writeAtCursor (a ++ b) = (line.writeAtCursor a).writeAtCursor b := by
  have hle := line.cursor_le
  have hlen : (line.bytes.take line.cursor ++ a).length = line.cursor + a.length := by
    rw [List.length_append, List.length_take, Nat.min_eq_left hle]
  ext1
  · simp only [writeAtCursor_bytes, writeAtCursor_cursor]
    have hdrop : (line.bytes.take line.cursor ++ a ++ line.bytes.drop (line.cursor + a.length)).drop
        (line.cursor + a.length + b.length) = line.bytes.drop (line.cursor + a.length + b.length) := by
      rw [List.drop_append, List.drop_eq_nil_of_le (by omega), hlen, List.drop_drop, List.nil_append]
      congr 1
      omega
    rw [List.take_append_of_le_length (Nat.le_of_eq hlen.symm), List.take_of_length_le (Nat.le_of_eq hlen),
      hdrop, List.length_append]
    simp only [List.append_assoc, Nat.add_assoc]
  · simp only [writeAtCursor_cursor, List.length_append, Nat.add_assoc]

section Planner

variable (planTruncate : List UInt8 → Nat → Ambiguous → Truncation)
variable (width : List UInt8 → Ambiguous → Nat)

/-- One byte of text on the page. -/
def Page.putByte (page : Page) (byte : UInt8) : Page :=
  if byte = kNewline then page.commitOpenLine planTruncate else page.writeAtCursor [byte]

theorem page_write_if (page : Page) (before : List UInt8) :
    (if before.isEmpty then page else page.writeAtCursor before) = page.writeAtCursor before := by
  cases before with
  | nil => simp [Page.writeAtCursor, writeAtCursor_nil]
  | cons byte rest => rfl

theorem writeText_eq (page : Page) (before text : List UInt8) :
    page.writeText planTruncate before text =
      text.foldl (Page.putByte planTruncate) (page.writeAtCursor before) := by
  induction text generalizing page before with
  | nil => exact page_write_if page before
  | cons byte rest ih =>
    have hnil (page : Page) : page.writeAtCursor [] = page := (page_write_if page []).symm
    by_cases hb : byte = kNewline
    · rw [Page.writeText, if_pos hb, ih, page_write_if, hnil, List.foldl_cons, Page.putByte, if_pos hb]
    · have hsplit : page.writeAtCursor (before ++ [byte]) =
          (page.writeAtCursor before).writeAtCursor [byte] := by
        simp only [Page.writeAtCursor, writeAtCursor_append]
      rw [Page.writeText, if_neg hb, ih, hsplit, List.foldl_cons, Page.putByte, if_neg hb]

/-- One item of the stream on the page. -/
def Page.applyItem (page : Page) : Item → Page
  | .text byte => page.putByte planTruncate byte
  | .token body => page.apply planTruncate [] body

theorem foldl_text (page : Page) (bytes : List UInt8) :
    (bytes.map Item.text).foldl (Page.applyItem planTruncate) page =
      bytes.foldl (Page.putByte planTruncate) page := by
  rw [List.foldl_map]
  rfl

/-- A token does to the page what its items do. -/
theorem apply_observe (page : Page) {bytes : List UInt8} {eof : Eof} {t : Token}
    (h : t.Placed bytes eof) :
    page.apply planTruncate bytes t =
      (observe bytes t).foldl (Page.applyItem planTruncate) page := by
  unfold observe Page.apply
  cases hk : t.kind with
  | text =>
    have hp := h.text hk
    have hnil : page.writeAtCursor [] = page := (page_write_if page []).symm
    simp only [tokenText, hp.2, if_true]
    rw [writeText_eq, hnil, foldl_text]
  | _ => simp [Page.applyItem, Page.apply]

theorem foldl_observe (tokens : List Token) (page : Page) {bytes : List UInt8} {eof : Eof}
    (h : ∀ t ∈ tokens, t.Placed bytes eof) :
    tokens.foldl (Page.apply planTruncate bytes) page =
      (tokens.flatMap (observe bytes)).foldl (Page.applyItem planTruncate) page := by
  induction tokens generalizing page with
  | nil => rfl
  | cons t rest ih =>
    rw [List.foldl_cons, List.flatMap_cons, List.foldl_append,
      apply_observe planTruncate page (h t List.mem_cons_self),
      ih _ fun t ht => h t (List.mem_cons_of_mem _ ht)]

/-! ## Whole streams -/

theorem tokens_of_drain {fuel : Nat} {sc sc' : Scanner} {bytes : List UInt8} {ts : List Token}
    {eof : Eof} (h : drain fuel sc bytes eof = some (ts, sc')) (hp : ∀ t ∈ ts, 0 < t.length) :
    tokens fuel sc bytes eof = some (ts, sc') := by
  induction fuel generalizing sc ts with
  | zero => cases h
  | succ fuel ih =>
    rw [drain] at h
    rw [tokens]
    rcases hs : scan sc bytes eof with ⟨sc1, _ | token⟩
    · simpa [hs] using h
    · simp only [hs, Option.map_eq_some_iff] at h
      obtain ⟨⟨rest, sc2⟩, hrest, heq⟩ := h
      obtain ⟨rfl, rfl⟩ := Prod.ext_iff.1 heq
      have hpos : token.length ≠ 0 := Nat.ne_of_gt (hp token List.mem_cons_self)
      simp [hpos, ih hrest fun t ht => hp t (List.mem_cons_of_mem _ ht)]

theorem commitOpenLine_finished (page : Page) :
    (page.commitOpenLine planTruncate).finished = page.finished := by
  unfold Page.commitOpenLine
  dsimp only
  split_ifs <;> rfl

theorem putByte_finished (page : Page) (byte : UInt8) :
    (page.putByte planTruncate byte).finished = page.finished := by
  unfold Page.putByte
  split_ifs
  · exact commitOpenLine_finished planTruncate page
  · rfl

theorem writeText_finished (page : Page) (before text : List UInt8) :
    (page.writeText planTruncate before text).finished = page.finished := by
  rw [writeText_eq]
  induction text generalizing page before with
  | nil => rfl
  | cons byte rest ih =>
    have hrest := ih ((page.writeAtCursor before).putByte planTruncate byte) []
    rw [← page_write_if] at hrest
    exact hrest.trans (putByte_finished planTruncate _ byte)

/-- No token closes the stream. -/
theorem apply_finished (page : Page) (bytes : List UInt8) (t : Token) :
    (page.apply planTruncate bytes t).finished = page.finished := by
  unfold Page.apply
  cases t.kind with
  | control =>
    dsimp only
    split_ifs
    · exact commitOpenLine_finished planTruncate page
    · rfl
    · rfl
    · rfl
  | text =>
    cases tokenText t bytes with
    | none => rfl
    | some text => exact writeText_finished planTruncate page [] text
  | _ => rfl

theorem applyItem_finished (page : Page) (item : Item) :
    (page.applyItem planTruncate item).finished = page.finished := by
  cases item with
  | text byte => exact putByte_finished planTruncate page byte
  | token body => exact apply_finished planTruncate page [] body

theorem items_finished (items : List Item) (page : Page) :
    (items.foldl (Page.applyItem planTruncate) page).finished = page.finished := by
  induction items generalizing page with
  | nil => rfl
  | cons item rest ih => rw [List.foldl_cons, ih, applyItem_finished]

/-- A shaper between two reads, at a machine and a page. -/
structure Shaper.At (s : Shaper) (c : Core) (page : Page) : Prop where
  pos : s.scanner.pos = 0
  bufferDone : s.scanner.bufferDone = false
  core : s.scanner.core = c
  toPage : s.toPage = page
  finished : page.finished = false

theorem push_at {s : Shaper} {c : Core} {page : Page} (h : s.At c page) (bytes : List UInt8) :
    ∃ s', s.push planTruncate bytes = some s' ∧
      s'.At (c.run bytes).1 ((c.run bytes).2.foldl (Page.applyItem planTruncate) page) := by
  obtain ⟨hp, hd, rfl, rfl, hf⟩ := h
  have hready : s.scanner.Ready bytes := ⟨hd, by omega, fun _ => hp⟩
  obtain ⟨ts, sc', hdrain, hp', hd', hplaced, hfeed⟩ :=
    drain_spec (bytes.length + 2) .more hready (by omega)
  have htokens := tokens_of_drain hdrain fun t ht => ((hplaced t ht).resolve_right nofun).1
  rw [hp, List.drop_zero] at hfeed
  have hrun : s.scanner.core.run bytes = (sc'.core, ts.flatMap (observe bytes)) := hfeed
  refine ⟨{ ts.foldl (Page.apply planTruncate bytes) s.toPage with scanner := sc' }, ?_, hp', hd', ?_, ?_, ?_⟩
  · rw [Shaper.push, hf, Shaper.feed, htokens]
    rfl
  · rw [hrun]
  · rw [hrun]
    exact foldl_observe planTruncate ts s.toPage hplaced
  · rw [items_finished, hf]

theorem pushAll_at (reads : List (List UInt8)) {s : Shaper} {c : Core} {page : Page} (h : s.At c page) :
    ∃ s', s.pushAll planTruncate reads = some s' ∧
      s'.At (Transducer.runChunks Core.step Core.boundary c reads).1
        ((Transducer.runChunks Core.step Core.boundary c reads).2.foldl
          (Page.applyItem planTruncate) page) := by
  induction reads generalizing s c page with
  | nil => exact ⟨s, rfl, h⟩
  | cons bytes reads ih =>
    obtain ⟨s1, hpush, h1⟩ := push_at planTruncate h bytes
    obtain ⟨s2, hall, h2⟩ := ih h1
    refine ⟨s2, ?_, ?_⟩
    · rw [Shaper.pushAll, hpush]
      exact hall
    · rw [Transducer.runChunks_cons, List.foldl_append]
      exact h2

/-- The last line commits. -/
def Page.close (page : Page) : Page := { page with finished := true }.commitOpenLine planTruncate

theorem finish_at {s : Shaper} {c : Core} {page : Page} (h : s.At c page) :
    ∃ s', s.finish planTruncate width = some (s', (page.close planTruncate).stats width) ∧
      s'.toPage = page.close planTruncate := by
  obtain ⟨hp, -, -, rfl, hf⟩ := h
  have hfeed : ∃ sc, s.feed planTruncate [] .final = some { s with scanner := sc } := by
    by_cases hg : s.scanner.state = .ground
    · exact ⟨{ s.scanner with bufferDone := false, pos := 0 }, by simp [Shaper.feed, tokens, scan, hg]⟩
    · refine ⟨abandon { s.scanner with bufferDone := false, pos := 0 }, ?_⟩
      simp [Shaper.feed, tokens, scan, hg, emit, Page.apply]
  obtain ⟨sc, hfeed⟩ := hfeed
  refine ⟨{ s with toPage := s.toPage.close planTruncate, scanner := sc }, ?_, rfl⟩
  simp only [Shaper.finish, hf, hfeed]
  rfl

theorem apply_atEnd (c : Core) (page : Page) :
    c.atEnd.foldl (Page.applyItem planTruncate) page = page := by
  unfold Core.atEnd
  split_ifs <;> rfl

/-- The transcript of a stream is a function of the items the stream shows. -/
theorem transcript_eq (maxLineCells maxLines : Nat) (ambiguous : Ambiguous)
    (reads : List (List UInt8)) :
    transcript planTruncate width maxLineCells maxLines ambiguous reads =
      let page := ((itemsOf reads).foldl (Page.applyItem planTruncate)
        (Page.new maxLineCells maxLines ambiguous)).close planTruncate
      some ⟨page, page.stats width, page.render⟩ := by
  have hnew : (Shaper.new maxLineCells maxLines ambiguous).At Core.init
      (Page.new maxLineCells maxLines ambiguous) := ⟨rfl, rfl, rfl, rfl, rfl⟩
  obtain ⟨s, hall, hs⟩ := pushAll_at planTruncate reads hnew
  obtain ⟨s', hfinish, hpage⟩ := finish_at planTruncate width hs
  rw [transcript, hall, itemsOf, List.foldl_append, apply_atEnd]
  simp only [hfinish, Option.map_some, hpage]

end Planner

/-- Drained chunk by chunk, a stream yields the same tokens and the same transcript for every way
of cutting it, exactly when it is not torn. -/
theorem chunking_invariant_iff (planTruncate : List UInt8 → Nat → Ambiguous → Truncation)
    (width : List UInt8 → Ambiguous → Nat) (stream : List UInt8) :
    (∀ chunks chunks' : List (List UInt8), chunks.flatten = stream → chunks'.flatten = stream →
      (∃ ts, tokensOf chunks = some ts ∧ tokensOf chunks' = some ts) ∧
      ∀ maxLineCells maxLines ambiguous, ∃ t,
        transcript planTruncate width maxLineCells maxLines ambiguous chunks = some t ∧
        transcript planTruncate width maxLineCells maxLines ambiguous chunks' = some t) ↔
    torn stream = false := by
  constructor
  · intro h
    rw [Bool.eq_false_iff]
    intro ht
    obtain ⟨⟨ts, hpieces, hwhole⟩, -⟩ := h (stream.map ([·])) [stream]
      (List.flatMap_def.symm.trans (List.flatMap_singleton' stream)) List.flatten_singleton
    exact itemsOf_torn stream ht ((tokensOf_eq_iff _ _).1 (hpieces.trans hwhole.symm))
  · rintro ht chunks chunks' rfl hc
    have hitems : itemsOf chunks = itemsOf chunks' := by
      rw [itemsOf_untorn chunks ht, itemsOf_untorn chunks' (hc ▸ ht), hc]
    refine ⟨⟨group (itemsOf chunks), tokensOf_eq chunks, hitems ▸ tokensOf_eq chunks'⟩, ?_⟩
    intro maxLineCells maxLines ambiguous
    refine ⟨_, transcript_eq planTruncate width maxLineCells maxLines ambiguous chunks, ?_⟩
    rw [hitems]
    exact transcript_eq planTruncate width maxLineCells maxLines ambiguous chunks'

/-- A lead byte, `ESC [ m`, and a CSI that opens with the byte `9B`: cut after the lead byte, the
`9B` is read as the rest of its character. -/
theorem chunking_torn_at_lead_byte :
    tokensOf [[0xE6], [0x1B, 0x5B, 0x6D, 0x9B, 0x6D]] ≠
      tokensOf [[0xE6, 0x1B, 0x5B, 0x6D, 0x9B, 0x6D]] := by
  decide

end SupraHarness.Shell
