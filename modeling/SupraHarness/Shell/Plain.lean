import SupraHarness.Ansi.Strip
import SupraHarness.Lib.Str
import SupraHarness.Shell.Shaper

/-!
# Plain text through the shaper

Text without control characters but newlines is scanned as text throughout, for every way of
reading it, and a line that fits is committed as it is. The shaper commits no empty line, so what is
rendered are the lines of the text without the blank ones.
-/
namespace SupraHarness.Shell

open SupraHarness.Ansi
open Width Fitting Utf8

def Ambiguous.toWidth : Ambiguous → Width.Ambiguous
  | .narrow => .narrow
  | .wide => .wide

/-- `supra_ffi::ansi::plan_truncate`. -/
def planTruncate (bytes : List UInt8) (maxCells : Nat) (ambiguous : Ambiguous) : Truncation :=
  match planTruncateFrom bytes maxCells ambiguous.toWidth none with
  | some t => ⟨t.prefixLen, t.truncated⟩
  | none => ⟨0, false⟩

/-- `supra_ffi::width::width`. -/
def width (bytes : List UInt8) (ambiguous : Ambiguous) : Nat := wcswidth bytes ambiguous.toWidth

/-- `char::is_control`. -/
def isControl (c : Char) : Bool := c.toNat < 0x20 || (0x7F ≤ c.toNat && c.toNat ≤ 0x9F)

/-- Text without control characters other than newline. -/
def Plain (text : List Char) : Prop := ∀ c ∈ text, isControl c = true → c = '\n'

def withoutFinalNewline (text : List Char) : List Char :=
  if text.getLast? = some '\n' then text.dropLast else text

/-! ## Text for the scanner -/

theorem allText_append_iff (e : Nat) (l m : List UInt8) :
    AllText e (l ++ m) ↔ AllText e l ∧ AllText (l.foldl nextExpect e) m := by
  induction l generalizing e with
  | nil => simp [AllText]
  | cons byte rest ih => simp [AllText, ih, and_assoc]

/-- The machine writes text as it reads it. -/
theorem run_allText (bytes : List UInt8) {c : Ansi.Core} (hg : c.state = .ground) (h : AllText c.utf8Expect bytes) :
    ∃ c', Transducer.run Ansi.Core.step c bytes = (c', bytes.map .text) ∧ c'.state = .ground ∧
      c'.utf8Expect = bytes.foldl nextExpect c.utf8Expect := by
  induction bytes generalizing c with
  | nil => exact ⟨c, rfl, hg, rfl⟩
  | cons byte rest ih =>
    have hstep : c.step byte =
        ({ c with utf8Expect := nextExpect c.utf8Expect byte, inRun := true }, [.text byte]) := by
      unfold nextExpect
      by_cases hm : midCharacter c.utf8Expect byte = true
      · rw [step_text c hg hm, if_pos hm]
      · rw [step_lead c hg (by simpa using hm) (h.1.resolve_left hm), if_neg hm]
    obtain ⟨c', hrun, hg', he'⟩ :=
      @ih { c with utf8Expect := nextExpect c.utf8Expect byte, inRun := true } hg h.2
    refine ⟨c', ?_, hg', he'⟩
    rw [Transducer.run_cons, hstep, hrun]
    rfl

theorem runChunks_allText (chunks : List (List UInt8)) {c : Ansi.Core} (hg : c.state = .ground)
    (h : AllText c.utf8Expect chunks.flatten) :
    ∃ c', Transducer.runChunks Ansi.Core.step Ansi.Core.boundary c chunks = (c', chunks.flatten.map .text) ∧
      c'.state = .ground := by
  induction chunks generalizing c with
  | nil => exact ⟨c, rfl, hg⟩
  | cons chunk chunks ih =>
    rw [List.flatten_cons, allText_append_iff] at h
    obtain ⟨c1, hrun, hg1, he1⟩ := run_allText chunk hg h.1
    obtain ⟨c2, hrest, hg2⟩ := @ih c1.boundary hg1 (he1 ▸ h.2)
    refine ⟨c2, ?_, hg2⟩
    rw [Transducer.runChunks_cons, hrun, hrest, List.flatten_cons, List.map_append]

/-- However it is cut, text shows its bytes. -/
theorem itemsOf_allText {chunks : List (List UInt8)} (h : AllText 0 chunks.flatten) :
    itemsOf chunks = chunks.flatten.map .text := by
  obtain ⟨c, hrun, hg⟩ := @runChunks_allText chunks Ansi.Core.init rfl h
  rw [itemsOf, hrun]
  simp [Ansi.Core.atEnd, hg]

/-! ## Encoded text -/

/-- A lead byte and the continuation bytes it announces. -/
theorem allText_char {lead : UInt8} {rest : List UInt8} (hlead : stopsText lead = false)
    (hcount : leadExpect lead = rest.length) (hrest : ∀ byte ∈ rest, continuation byte = true) :
    AllText 0 (lead :: rest) := by
  have htail : ∀ (l : List UInt8), (∀ byte ∈ l, continuation byte = true) → AllText l.length l := by
    intro l hl
    induction l with
    | nil => trivial
    | cons byte l ih =>
      rw [List.forall_mem_cons] at hl
      have hm : midCharacter (byte :: l).length byte = true := by
        simpa [midCharacter_iff, continuation] using hl.1
      refine ⟨.inl hm, ?_⟩
      rw [nextExpect, if_pos hm]
      exact ih hl.2
  refine ⟨.inr hlead, ?_⟩
  rw [nextExpect, if_neg (by simp), hcount]
  exact htail rest hrest

/-- The bytes that start a character of more than one byte. -/
theorem lead_wide {n : Nat} (h : 0xC2 ≤ n) (hle : n ≤ 0xF4) :
    stopsText (UInt8.ofNat n) = false ∧
      leadExpect (UInt8.ofNat n) = if n ≤ 0xDF then 1 else if n ≤ 0xEF then 2 else 3 := by
  have hn : (UInt8.ofNat n).toNat = n := Str.toNat_ofNat (by omega)
  constructor
  · rw [← Bool.not_eq_true, stopsText_iff, hn]
    omega
  · simp only [leadExpect, UInt8.le_iff_toNat_le, hn, UInt8.reduceToNat]
    split_ifs <;> omega

/-- A printable character, and the newline, are text. -/
theorem allText_utf8EncodeChar {c : Char} (h : isControl c = true → c = '\n') :
    AllText 0 (String.utf8EncodeChar c) := by
  by_cases hascii : c.toNat < 0x80
  · rw [utf8EncodeChar_ascii hascii]
    have hcode : c.toNat < 0x20 ∨ 0x7F ≤ c.toNat → c.toNat = 0x0A := by
      intro hc
      rw [h (by simpa [isControl] using hc.imp_right fun hle => ⟨hle, by omega⟩)]
      rfl
    have hn : (UInt8.ofNat c.toNat).toNat = c.toNat := Str.toNat_ofNat (by omega)
    refine ⟨.inr ?_, trivial⟩
    rw [← Bool.not_eq_true, stopsText_iff, hn]
    omega
  · have hlt := toNat_lt c
    have hval : ¬ c.val.toNat ≤ 0x7F := fun hle => hascii (Nat.lt_succ_of_le hle)
    simp only [String.utf8EncodeChar, if_neg hval]
    split_ifs with h2 h3
    · obtain ⟨hstops, hcount⟩ := @lead_wide (c.val.toNat / 64 % 0x20 + 0xC0) (by omega) (by omega)
      rw [if_pos (by omega)] at hcount
      exact allText_char hstops hcount (List.forall_mem_singleton.2 (Str.continuation_tail _))
    · obtain ⟨hstops, hcount⟩ := @lead_wide (c.val.toNat / 4096 % 0x10 + 0xE0) (by omega) (by omega)
      rw [if_neg (by omega), if_pos (by omega)] at hcount
      exact allText_char hstops hcount (List.forall_mem_cons.2
        ⟨Str.continuation_tail _, List.forall_mem_singleton.2 (Str.continuation_tail _)⟩)
    · obtain ⟨hstops, hcount⟩ := @lead_wide (c.val.toNat / 262144 % 8 + 0xF0) (by omega) (by omega)
      rw [if_neg (by omega), if_neg (by omega)] at hcount
      exact allText_char hstops hcount (List.forall_mem_cons.2 ⟨Str.continuation_tail _, List.forall_mem_cons.2
        ⟨Str.continuation_tail _, List.forall_mem_singleton.2 (Str.continuation_tail _)⟩⟩)

theorem Plain.allText {text : List Char} (h : Plain text) : AllText 0 (encode text) :=
  allText_flatMap text _ fun c hc => allText_utf8EncodeChar (h c hc)

/-! ## Lines that fit -/

/-- A line of text is cut into its clusters. -/
theorem pieces_allText {line : List UInt8} (h : AllText 0 line) :
    ∃ tokens, Lexes 0 Sequence.zero line tokens ∧ pieces tokens line = (clusters line).map .cluster := by
  by_cases hne : line = []
  · subst hne
    exact ⟨[], .done, rfl⟩
  · refine ⟨_, lexes_allText h hne, ?_⟩
    rw [pieces_text _ _ rfl]
    simp [emitSimple, emit, pieces]

/-- A line of text that fits is not cut. -/
theorem planTruncate_fits {line : List UInt8} {maxCells : Nat} {ambiguous : Ambiguous} (h : AllText 0 line)
    (hfits : width line ambiguous ≤ maxCells) : planTruncate line maxCells ambiguous = ⟨line.length, false⟩ := by
  obtain ⟨tokens, hlex, hpieces⟩ := pieces_allText h
  have hall : fitting (Piece.cells ambiguous.toWidth) maxCells ((clusters line).map .cluster) =
      (clusters line).map .cluster := by
    apply fitting_of_total_le
    rw [cells_clusters, ← wcswidth_eq]
    exact hfits
  have hlast : ((clusters line).map Piece.cluster).rdropWhile Piece.broken = (clusters line).map .cluster := by
    rw [List.rdropWhile_eq_self_iff]
    intro hne hbroken
    obtain ⟨cluster, -, hcluster⟩ := List.mem_map.mp (List.getLast_mem hne)
    rw [← hcluster] at hbroken
    cases hbroken
  rw [planTruncate, planTruncateFrom_eq hlex none, hpieces, hall]
  simp only [hlast, size_clusters, total_length, flatten_clusters, Nat.lt_irrefl, decide_false]

/-! ## The page -/

/-- A line with the cursor at its end. -/
def OpenLine.full (bytes : List UInt8) : OpenLine := ⟨bytes, bytes.length, Nat.le_refl _⟩

theorem writeAtCursor_full (bytes text : List UInt8) :
    (OpenLine.full bytes).writeAtCursor text = .full (bytes ++ text) := by
  simp [OpenLine.writeAtCursor, OpenLine.full]

theorem foldl_putByte_line (text : List UInt8) (h : kNewline ∉ text) (page : Page) :
    text.foldl (Page.putByte planTruncate) page = page.writeAtCursor text := by
  induction text generalizing page with
  | nil => exact page_write_if page []
  | cons byte text ih =>
    rw [List.mem_cons, not_or] at h
    rw [List.foldl_cons, Page.putByte, if_neg (Ne.symm h.1), ih h.2]
    simp only [Page.writeAtCursor]
    rw [← writeAtCursor_append]
    rfl

/-- A character other than newline is written at once. -/
theorem foldl_putByte_char {c : Char} (h : c ≠ '\n') (page : Page) :
    (String.utf8EncodeChar c).foldl (Page.putByte planTruncate) page =
      page.writeAtCursor (String.utf8EncodeChar c) := by
  apply foldl_putByte_line
  intro hmem
  have hin : kNewline ∈ encode [c] := by simpa using hmem
  have hc := mem_of_mem_encode (by decide) hin
  exact h (List.mem_singleton.mp hc).symm

/-- The lines of a transcript. -/
def committed (lines : List (List Char)) : List (List UInt8) := (lines.filter (· ≠ [])).map encode

/-- The open line goes to the end of the ring, unless it is empty. -/
theorem commitOpenLine_fits {page : Page} {line : List Char} (hline : page.line = .full (encode line))
    (hplain : Plain line) (hfits : line ≠ [] → width (encode line) page.ambiguous ≤ page.maxLineCells)
    (hring : page.ring.length + (committed [line]).length ≤ page.maxLines) :
    page.commitOpenLine planTruncate =
      { page with line := .full [], ring := page.ring ++ committed [line] } := by
  obtain ⟨openLine, ring, truncatedLines, droppedLines, maxLineCells, maxLines, ambiguous, finished⟩ := page
  obtain rfl : openLine = .full (encode line) := hline
  simp only at hfits hring
  cases line with
  | nil => simp [Page.commitOpenLine, OpenLine.full, OpenLine.empty, committed]
  | cons c cs =>
    have hone : committed [c :: cs] = [encode (c :: cs)] := by simp [committed]
    have hne : encode (c :: cs) ≠ [] := by simp
    have hplan := planTruncate_fits hplain.allText (hfits (List.cons_ne_nil c cs))
    rw [hone, List.length_singleton] at hring
    rw [hone]
    generalize encode (c :: cs) = bytes at hne hplan
    have hsome : maxLines ≠ 0 := by omega
    have hfree : ring.length ≠ maxLines := by omega
    simp [Page.commitOpenLine, OpenLine.full, OpenLine.empty, hne, hplan, hsome, hfree]

theorem committed_cons (line : List Char) (lines : List (List Char)) :
    committed (line :: lines) = committed [line] ++ committed lines := by
  simp only [committed, ← List.map_append, ← List.filter_append, List.singleton_append]

/-- Text has no carriage return for `lines` to take along. -/
theorem Plain.noReturn {text : List Char} (h : Plain text) : '\r' ∉ text := fun hreturn =>
  absurd (h _ hreturn (by decide)) (by decide)

theorem committed_nil_lines (line : List Char) : committed (Str.linesFrom line []) = committed [line] := by
  cases line <;> rfl

/-- What the characters of a text and the end of the stream make of a page whose open line has some of
them already. -/
theorem plain_page (text line : List Char) {page : Page} (hline : page.line = .full (encode line))
    (hplain : Plain (line ++ text))
    (hfits : ∀ l ∈ Str.linesFrom line text, width (encode l) page.ambiguous ≤ page.maxLineCells)
    (hring : page.ring.length + (committed (Str.linesFrom line text)).length ≤ page.maxLines) :
    ((encode text).foldl (Page.putByte planTruncate) page).close planTruncate =
      { page with
        line := .full []
        ring := page.ring ++ committed (Str.linesFrom line text)
        finished := true } := by
  induction text generalizing line page with
  | nil =>
    rw [committed_nil_lines] at hring ⊢
    rw [List.append_nil] at hplain
    rw [encode_nil, List.foldl_nil, Page.close]
    have hcommit := @commitOpenLine_fits { page with finished := true } line hline hplain
      (fun hne => hfits line (by simp [Str.linesFrom, hne])) hring
    exact hcommit
  | cons c text ih =>
    rw [encode_cons, List.foldl_append]
    by_cases hc : c = '\n'
    · subst hc
      have hfront : Plain line := fun c hc => hplain c (List.mem_append_left _ hc)
      have hrest : Plain text := fun c hc => hplain c (List.mem_append_right _ (List.mem_cons_of_mem _ hc))
      rw [Str.linesFrom_feed hfront.noReturn] at hfits hring ⊢
      rw [committed_cons] at hring ⊢
      rw [List.forall_mem_cons] at hfits
      rw [List.length_append, ← Nat.add_assoc] at hring
      have hcommit := commitOpenLine_fits hline hfront (fun _ => hfits.1) (Nat.le_trans (Nat.le_add_right _ _) hring)
      have hbyte : (String.utf8EncodeChar '\n').foldl (Page.putByte planTruncate) page =
          page.commitOpenLine planTruncate := rfl
      rw [hbyte, hcommit]
      have hnext := @ih [] { page with line := .full [], ring := page.ring ++ committed [line] } rfl hrest hfits.2
        (by rw [List.length_append]; exact hring)
      rw [hnext, List.append_assoc]
    · rw [foldl_putByte_char hc]
      rw [Str.linesFrom_char hc] at hfits hring ⊢
      have hnext := @ih (line ++ [c]) (page.writeAtCursor (String.utf8EncodeChar c))
        (by simp [Page.writeAtCursor, hline, writeAtCursor_full]) (by simpa using hplain) hfits hring
      exact hnext

/-! ## What is rendered -/

theorem length_intercalate (separator : UInt8) (lines : List (List UInt8)) :
    (List.intercalate [separator] lines).length = (lines.map List.length).sum + (lines.length - 1) := by
  induction lines with
  | nil => rfl
  | cons line lines ih =>
    by_cases hne : lines = []
    · simp [hne]
    · have hpos := List.length_pos_iff.mpr hne
      rw [List.intercalate_cons_of_ne_nil hne, List.length_append, List.length_append, ih]
      simp only [List.map_cons, List.sum_cons, List.length_cons, List.length_nil]
      omega

/-- Blank lines have no bytes. -/
theorem sum_committed (lines : List (List Char)) :
    ((committed lines).map List.length).sum = ((lines.map encode).map List.length).sum := by
  induction lines with
  | nil => rfl
  | cons line lines ih =>
    rw [committed_cons, List.map_append, List.sum_append, ih]
    cases line with
    | nil => simp [committed]
    | cons c cs => simp [committed]

/-- The lines without the blank ones are the lines only if there are none, or a blank one is all. -/
theorem intercalate_committed_iff (lines : List (List Char)) :
    List.intercalate [kNewline] (committed lines) = List.intercalate [kNewline] (lines.map encode) ↔
      lines = [[]] ∨ [] ∉ lines := by
  constructor
  · intro h
    by_contra hno
    rw [not_or, not_not] at hno
    obtain ⟨hone, hblank⟩ := hno
    have hlen := congrArg List.length h
    rw [length_intercalate, length_intercalate, sum_committed] at hlen
    have hfewer : (lines.filter (· ≠ [])).length < lines.length :=
      List.length_filter_lt_length_iff_exists.mpr ⟨[], hblank, by simp⟩
    have htwo : 2 ≤ lines.length := by
      obtain ⟨line, rest, rfl⟩ := List.exists_cons_of_ne_nil (List.ne_nil_of_mem hblank)
      cases rest with
      | nil => exact absurd (by rw [List.mem_singleton.mp hblank]) hone
      | cons next rest => simp
    simp only [committed, List.length_map] at hlen
    omega
  · rintro (rfl | h)
    · rfl
    · have hall : lines.filter (· ≠ []) = lines := by
        rw [List.filter_eq_self]
        intro line hline
        rw [decide_eq_true_eq]
        rintro rfl
        exact h hline
      rw [committed, hall]

theorem linesFrom_ne_nil (text line : List Char) (h : line ≠ [] ∨ text ≠ []) : Str.linesFrom line text ≠ [] := by
  induction text generalizing line with
  | nil =>
    rw [Str.linesFrom, if_neg (h.resolve_right (· rfl))]
    exact List.cons_ne_nil _ _
  | cons c text ih =>
    rw [Str.linesFrom]
    split_ifs
    · exact List.cons_ne_nil _ _
    · exact List.cons_ne_nil _ _
    · exact ih _ (.inl (List.append_ne_nil_of_right_ne_nil line (List.cons_ne_nil c [])))

theorem withoutFinalNewline_append (front : List Char) {text : List Char} (h : text ≠ []) :
    withoutFinalNewline (front ++ text) = front ++ withoutFinalNewline text := by
  rw [withoutFinalNewline, withoutFinalNewline, List.getLast?_append_of_ne_nil _ h,
    List.dropLast_append_of_ne_nil h]
  split_ifs <;> rfl

theorem withoutFinalNewline_line {line : List Char} (h : '\n' ∉ line) : withoutFinalNewline line = line :=
  if_neg fun hlast => h (List.mem_of_getLast? hlast)

/-- The lines joined again are the text without its final newline. -/
theorem intercalate_lines (text line : List Char) (hplain : Plain (line ++ text)) (hline : '\n' ∉ line) :
    List.intercalate [kNewline] ((Str.linesFrom line text).map encode) =
      encode (withoutFinalNewline (line ++ text)) := by
  induction text generalizing line with
  | nil =>
    rw [List.append_nil, withoutFinalNewline_line hline]
    cases line with
    | nil => rfl
    | cons c cs => exact List.intercalate_singleton
  | cons c text ih =>
    by_cases hc : c = '\n'
    · subst hc
      have hfront : Plain line := fun c hc => hplain c (List.mem_append_left _ hc)
      have hrest : Plain text := fun c hc => hplain c (List.mem_append_right _ (List.mem_cons_of_mem _ hc))
      rw [Str.linesFrom_feed hfront.noReturn]
      by_cases hnil : text = []
      · subst hnil
        have hdrop : withoutFinalNewline (line ++ ['\n']) = line := by simp [withoutFinalNewline]
        rw [hdrop]
        exact List.intercalate_singleton
      · have hsome := linesFrom_ne_nil text [] (.inr hnil)
        have hsplit : line ++ '\n' :: text = (line ++ ['\n']) ++ text := by simp
        have hlines := ih [] hrest List.not_mem_nil
        rw [List.nil_append] at hlines
        rw [List.map_cons, List.intercalate_cons_of_ne_nil (by simpa using hsome), hlines, hsplit,
          withoutFinalNewline_append _ hnil, encode_append, encode_append]
        rfl
    · have hsplit : line ++ c :: text = (line ++ [c]) ++ text := by simp
      rw [Str.linesFrom_char hc, hsplit]
      apply ih
      · rwa [← hsplit]
      · simp [hline, Ne.symm hc]

/-- A text whose lines fit is rendered as it is, up to its final newline, exactly when it is one blank
line or has none. -/
theorem plain_render_iff (maxLineCells maxLines : Nat) (ambiguous : Ambiguous) (text : List Char)
    (hplain : Plain text) (hfits : ∀ line ∈ Str.lines text, width (encode line) ambiguous ≤ maxLineCells)
    (hring : (Str.lines text).length ≤ maxLines) (chunks : List (List UInt8))
    (hchunks : chunks.flatten = encode text) :
    ∃ t, transcript planTruncate width maxLineCells maxLines ambiguous chunks = some t ∧
      (t.rendered = encode (withoutFinalNewline text) ↔ Str.lines text = [[]] ∨ [] ∉ Str.lines text) := by
  have hitems := itemsOf_allText (hchunks ▸ hplain.allText)
  have hroom : (committed (Str.lines text)).length ≤ maxLines := by
    rw [committed, List.length_map]
    exact Nat.le_trans (List.length_filter_le _ _) hring
  have hpage := @plain_page text [] (Page.new maxLineCells maxLines ambiguous) rfl hplain hfits
    (by rw [Page.new, List.length_nil, Nat.zero_add]; exact hroom)
  have hjoined := intercalate_lines text [] hplain List.not_mem_nil
  refine ⟨_, transcript_eq planTruncate width maxLineCells maxLines ambiguous chunks, ?_⟩
  rw [hitems, foldl_text, hchunks]
  simp only [hpage]
  rw [← intercalate_committed_iff, ← List.nil_append text, ← hjoined]
  rfl

/-- Two lines in three reads, the second of which starts inside a character. -/
theorem plain_render_iff_two_lines :
    ∃ t, transcript planTruncate width 4 2 .narrow [[0x61, 0xC3], [0xA9, 0x0A], [0x62]] = some t ∧
      (t.rendered = encode (withoutFinalNewline ['a', 'é', '\n', 'b']) ↔
        Str.lines ['a', 'é', '\n', 'b'] = [[]] ∨ [] ∉ Str.lines ['a', 'é', '\n', 'b']) :=
  plain_render_iff 4 2 .narrow ['a', 'é', '\n', 'b'] (by unfold Plain; decide) (by decide +kernel) (by decide)
    [[0x61, 0xC3], [0xA9, 0x0A], [0x62]] (by decide)

/-- The blank line between two others is lost. -/
theorem plain_render_drops_blank :
    (transcript planTruncate width 80 64 .narrow [encode ['a', '\n', '\n', 'b']]).map Transcript.rendered =
      some (encode ['a', '\n', 'b']) ∧
    encode ['a', '\n', 'b'] ≠ encode (withoutFinalNewline ['a', '\n', '\n', 'b']) := by
  decide +kernel

end SupraHarness.Shell
