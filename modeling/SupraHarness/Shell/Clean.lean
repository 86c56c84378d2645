import SupraHarness.Shell.Plain

/-!
# What is left of a stream

The shaper overwrites the bytes of the open line, not its characters. A run of text that is written
over a part of a character leaves the rest of it on the line, which may be a control character when it
stands alone; a run that is written inside one is no valid text with what stands around it.
-/
namespace SupraHarness.Shell

open SupraHarness.Ansi
open Width Fitting Utf8

/-! ## What a stream does to the page -/

inductive Op where
  /-- A run of text without newlines. -/
  | write (text : List UInt8)
  /-- A newline of the text. -/
  | newline
  /-- A newline that is a control of its own. -/
  | commit
  | home
  | left
  deriving DecidableEq, Repr

namespace Op

def bytes : Op → List UInt8
  | write text => text
  | newline => [kNewline]
  | _ => []

def onLine (line : OpenLine) : Op → OpenLine
  | write text => line.writeAtCursor text
  | newline => .empty
  | commit => .empty
  | home => line.home
  | left => line.left

def onPage (page : Page) : Op → Page
  | write text => page.writeAtCursor text
  | newline => page.commitOpenLine planTruncate
  | commit => page.commitOpenLine planTruncate
  | home => { page with line := page.line.home }
  | left => { page with line := page.line.left }

end Op

/-- The runs of a text and its newlines; `before` is what has been read of the current run. -/
def textOps (before : List UInt8) : List UInt8 → List Op
  | [] => if before.isEmpty then [] else [.write before]
  | byte :: rest =>
    if byte = kNewline then (if before.isEmpty then [] else [.write before]) ++ .newline :: textOps [] rest
    else textOps (before ++ [byte]) rest

def tokenOps (token : Token) : List Op :=
  if token.kind ≠ .control then []
  else if token.finalByte = kNewline then [.commit]
  else if token.finalByte = kReturn then [.home]
  else if token.finalByte = kBackspace then [.left]
  else []

def observedOps : Observed → List Op
  | .text bytes => textOps [] bytes
  | .sequence body => tokenOps body

/-- What the items of a stream do, the text in runs as long as they are. -/
def ops (items : List Item) : List Op := (group items).flatMap observedOps

/-- The text of a stream. -/
def textOf (items : List Item) : List UInt8 :=
  items.flatMap fun item =>
    match item with
    | .text byte => [byte]
    | .token _ => []

theorem foldl_textOps (page : Page) (before text : List UInt8) :
    (textOps before text).foldl Op.onPage page = page.writeText planTruncate before text := by
  induction text generalizing page before with
  | nil =>
    rw [textOps, Page.writeText]
    split <;> rfl
  | cons byte rest ih =>
    rw [textOps, Page.writeText]
    by_cases hb : byte = kNewline
    · rw [if_pos hb, if_pos hb, List.foldl_append, List.foldl_cons, ih]
      cases before <;> rfl
    · rw [if_neg hb, if_neg hb, ih]

theorem foldl_tokenOps (page : Page) (token : Token) :
    (tokenOps token).foldl Op.onPage page = page.apply planTruncate [] token := by
  unfold tokenOps Page.apply
  cases hk : token.kind with
  | control =>
    simp only [ne_eq, not_true_eq_false, if_false]
    split_ifs <;> rfl
  | text =>
    rw [if_pos (by decide)]
    simp only [tokenText, List.drop_nil, List.take_nil]
    by_cases hle : token.offset + token.length ≤ ([] : List UInt8).length
    · rw [if_pos hle]
      rfl
    · rw [if_neg hle]
      rfl
  | _ => rfl

/-- The page is what the operations of a stream make of it. -/
theorem foldl_ops (items : List Item) (page : Page) :
    (ops items).foldl Op.onPage page = items.foldl (Page.applyItem planTruncate) page := by
  have hgroups : ∀ (observed : List Observed) (page : Page),
      (observed.flatMap observedOps).foldl Op.onPage page =
        (observed.flatMap Observed.items).foldl (Page.applyItem planTruncate) page := by
    intro observed
    induction observed with
    | nil => exact fun _ => rfl
    | cons head observed ih =>
      intro page
      rw [List.flatMap_cons, List.foldl_append, List.flatMap_cons, List.foldl_append, ih]
      congr 1
      cases head with
      | text bytes =>
        have hnil : page.writeAtCursor [] = page := (page_write_if page []).symm
        rw [observedOps, foldl_textOps, writeText_eq, hnil, Observed.items, foldl_text]
      | sequence body => exact foldl_tokenOps page body
  rw [ops, hgroups, group_items]

theorem bytes_textOps (before text : List UInt8) : (textOps before text).flatMap Op.bytes = before ++ text := by
  have hwrite : (if before.isEmpty then [] else [Op.write before]).flatMap Op.bytes = before := by
    cases before <;> simp [Op.bytes]
  induction text generalizing before with
  | nil => rw [textOps, hwrite, List.append_nil]
  | cons byte rest ih =>
    rw [textOps]
    by_cases hb : byte = kNewline
    · rw [if_pos hb, List.flatMap_append, hwrite, List.flatMap_cons, ih [] rfl, hb]
      rfl
    · rw [if_neg hb, ih]
      · rw [List.append_assoc, List.singleton_append]
      · simp [Op.bytes]

theorem bytes_tokenOps (token : Token) : (tokenOps token).flatMap Op.bytes = [] := by
  unfold tokenOps
  split_ifs <;> rfl

theorem bytes_ops (items : List Item) : (ops items).flatMap Op.bytes = textOf items := by
  have hgroups : ∀ observed : List Observed,
      (observed.flatMap observedOps).flatMap Op.bytes = textOf (observed.flatMap Observed.items) := by
    intro observed
    induction observed with
    | nil => rfl
    | cons head observed ih =>
      have happend : ∀ front back, textOf (front ++ back) = textOf front ++ textOf back :=
        fun _ _ => List.flatMap_append
      rw [List.flatMap_cons, List.flatMap_append, List.flatMap_cons, happend, ih]
      congr 1
      cases head with
      | text bytes =>
        rw [observedOps, bytes_textOps, Observed.items, textOf, List.flatMap_map]
        exact (List.flatMap_singleton' bytes).symm
      | sequence body => exact bytes_tokenOps body
  rw [ops, hgroups, group_items]

/-! ## Runs that splice cleanly -/

/-- The run is text on its own, and behind what it overwrites no character is left in part. -/
structure Clears (line : OpenLine) (text : List UInt8) : Prop where
  run : AllText 0 text
  behind : startsWhole (line.bytes.drop (line.cursor + text.length))

/-- The run starts with a character, and where it is written no character is cut. -/
structure Lands (line : OpenLine) (text : List UInt8) : Prop where
  run : startsWhole text
  cursor : startsWhole (line.bytes.drop line.cursor)

/-- Every run of a stream meets a condition on it and the line it is written to. -/
def Along (P : OpenLine → List UInt8 → Prop) : OpenLine → List Op → Prop
  | _, [] => True
  | line, op :: ops => (∀ text, op = .write text → P line text) ∧ Along P (op.onLine line) ops

/-- No run of the stream splits a character; where the runs are to be valid text, none begins in one. -/
structure Splices (items : List Item) : Prop where
  clears : Along Clears .empty (ops items)
  lands : Valid (textOf items) → Along Lands .empty (ops items)

theorem commitOpenLine_line (page : Page) : (page.commitOpenLine planTruncate).line = .empty := by
  unfold Page.commitOpenLine
  dsimp only
  split_ifs <;> rfl

theorem onPage_line (page : Page) (op : Op) : (op.onPage page).line = op.onLine page.line := by
  cases op with
  | newline => exact commitOpenLine_line page
  | commit => exact commitOpenLine_line page
  | _ => rfl

/-- The ring gets what is kept of the line, or nothing. -/
theorem mem_commitOpenLine {page : Page} {line : List UInt8} (h : line ∈ (page.commitOpenLine planTruncate).ring) :
    line ∈ page.ring ∨
      line = page.line.bytes.take (planTruncate page.line.bytes page.maxLineCells page.ambiguous).prefixLen := by
  have hpush : ∀ ring : List (List UInt8), (∀ l ∈ ring, l ∈ page.ring) → ∀ kept, line ∈ ring ++ [kept] →
      line ∈ page.ring ∨ line = kept := by
    intro ring hring kept hmem
    exact (List.mem_append.mp hmem).imp (hring line) List.mem_singleton.mp
  unfold Page.commitOpenLine at h
  dsimp only at h
  split_ifs at h
  all_goals first
    | exact .inl h
    | exact hpush _ (fun _ => List.mem_of_mem_tail) _ h
    | exact hpush _ (fun _ => id) _ h

/-! ## Text -/

theorem midCharacter_of_startsWhole {byte : UInt8} {rest : List UInt8} (h : startsWhole (byte :: rest)) (e : Nat) :
    midCharacter e byte = false := by
  rw [Bool.eq_false_iff]
  intro hmid
  have hcont : continuation byte = true := by
    simpa [continuation] using ((midCharacter_iff e byte).mp hmid).2
  rw [h byte rfl] at hcont
  cases hcont

/-- What starts with a character is text wherever it stands. -/
theorem allText_of_startsWhole {e : Nat} {bytes : List UInt8} (h : AllText e bytes) (hwhole : startsWhole bytes) :
    AllText 0 bytes := by
  cases bytes with
  | nil => trivial
  | cons byte rest =>
    have hmid := midCharacter_of_startsWhole hwhole
    refine ⟨.inr (h.1.resolve_left (by rw [hmid e]; exact Bool.false_ne_true)), ?_⟩
    have hrest := h.2
    rw [nextExpect, hmid e] at hrest
    rw [nextExpect, hmid 0]
    exact hrest

theorem allText_take {bytes : List UInt8} (h : AllText 0 bytes) (n : Nat) : AllText 0 (bytes.take n) := by
  rw [← List.take_append_drop n bytes, allText_append_iff] at h
  exact h.1

theorem Clears.allText {line : OpenLine} {text : List UInt8} (h : Clears line text) (hline : AllText 0 line.bytes) :
    AllText 0 (line.writeAtCursor text).bytes := by
  have hdrop := hline
  rw [← List.take_append_drop (line.cursor + text.length) line.bytes, allText_append_iff] at hdrop
  rw [writeAtCursor_bytes]
  exact allText_append (allText_append (allText_take hline _) h.run) (allText_of_startsWhole hdrop.2 h.behind)

/-- The open line and the ring hold text. -/
structure Page.Text (page : Page) : Prop where
  line : AllText 0 page.line.bytes
  ring : ∀ line ∈ page.ring, AllText 0 line

theorem Page.Text.commit {page : Page} (h : page.Text) : (page.commitOpenLine planTruncate).Text := by
  constructor
  · rw [commitOpenLine_line]
    trivial
  · intro line hline
    rcases mem_commitOpenLine hline with hline | rfl
    · exact h.ring line hline
    · exact allText_take h.line _

theorem Page.Text.close {page : Page} (h : page.Text) : (page.close planTruncate).Text :=
  @Page.Text.commit { page with finished := true } ⟨h.line, h.ring⟩

theorem Page.Text.onPage {page : Page} (h : page.Text) {op : Op}
    (hop : ∀ text, op = .write text → Clears page.line text) : (op.onPage page).Text := by
  cases op with
  | write text => exact ⟨(hop text rfl).allText h.line, h.ring⟩
  | newline => exact h.commit
  | commit => exact h.commit
  | home => exact ⟨h.line, h.ring⟩
  | left => exact ⟨h.line, h.ring⟩

/-- Clean runs leave text in every state of the page. -/
theorem Page.Text.run {page : Page} (h : page.Text) {ops : List Op} (hops : Along Clears page.line ops) :
    (ops.foldl Op.onPage page).Text := by
  induction ops generalizing page with
  | nil => exact h
  | cons op ops ih =>
    refine ih (h.onPage hops.1) ?_
    rw [onPage_line]
    exact hops.2

/-- What holds of the lines and the separator, and of one text behind another, holds of the lines joined. -/
theorem intercalate_induction {P : List UInt8 → Prop} {separator : List UInt8} (hnil : P [])
    (happend : ∀ front back, P front → P back → P (front ++ back)) (hseparator : P separator)
    {lines : List (List UInt8)} (h : ∀ line ∈ lines, P line) : P (List.intercalate separator lines) := by
  induction lines with
  | nil => exact hnil
  | cons line lines ih =>
    obtain ⟨hhead, htail⟩ := List.forall_mem_cons.mp h
    by_cases hne : lines = []
    · rw [hne, List.intercalate_singleton]
      exact hhead
    · rw [List.intercalate_cons_of_ne_nil hne]
      exact happend _ _ (happend _ _ hhead hseparator) (ih htail)

theorem allText_intercalate {lines : List (List UInt8)} (h : ∀ line ∈ lines, AllText 0 line) :
    AllText 0 (List.intercalate [kNewline] lines) :=
  intercalate_induction trivial (fun _ _ => allText_append) ⟨.inr (by decide), trivial⟩ h

/-- Text is scanned as text. -/
theorem forEachToken_allText {bytes : List UInt8} (h : AllText 0 bytes) :
    ∃ tokens, forEachToken bytes = some tokens ∧ ∀ token ∈ tokens, token.kind = .text := by
  by_cases hne : bytes = []
  · subst hne
    exact ⟨[], forEachToken_eq .done, nofun⟩
  · exact ⟨_, forEachToken_eq (lexes_allText h hne), List.forall_mem_singleton.mpr rfl⟩

/-! ## Valid text -/

theorem Lands.valid {line : OpenLine} {text : List UInt8} (h : Lands line text) (hclears : Clears line text)
    (hline : Valid line.bytes) (htext : Valid text) : Valid (line.writeAtCursor text).bytes := by
  rw [writeAtCursor_bytes]
  exact ((hline.take h.cursor).append htext).append (hline.drop hclears.behind)

/-- A cluster of valid text is valid. -/
theorem valid_clusterLength {bytes : List UInt8} (h : Valid bytes) :
    Valid (bytes.take (clusterLength bytes)) ∧ Valid (bytes.drop (clusterLength bytes)) := by
  obtain ⟨cs, rfl⟩ := h
  have hlength : clusterLength (encode cs) = (encode (cs.take (clusterScalars (encode cs)))).length := by
    rw [clusterLength_eq, scalars_encode, ← List.map_take]
    generalize cs.take _ = front
    induction front with
    | nil => rfl
    | cons c front ih =>
      rw [List.map_cons, lengths_cons, ih, encode_cons, List.length_append, String.length_utf8EncodeChar]
  obtain ⟨front, back, rfl, hfront⟩ : ∃ front back, cs = front ++ back ∧
      clusterLength (encode cs) = (encode front).length :=
    ⟨_, _, (List.take_append_drop _ cs).symm, hlength⟩
  rw [hfront, encode_append, List.take_left, List.drop_left]
  exact ⟨⟨front, rfl⟩, ⟨back, rfl⟩⟩

theorem valid_clusters {fuel : Nat} {bytes : List UInt8} (hfuel : bytes.length ≤ fuel) (h : Valid bytes) :
    ∀ cluster ∈ clusters bytes, Valid cluster := by
  induction fuel generalizing bytes with
  | zero =>
    obtain rfl := List.length_eq_zero_iff.mp (Nat.le_zero.mp hfuel)
    exact nofun
  | succ fuel ih =>
    by_cases hne : bytes = []
    · subst hne
      exact nofun
    · obtain ⟨hfirst, hrest⟩ := valid_clusterLength h
      have hpos := clusterLength_pos hne
      rw [clusters_cons hne]
      refine List.forall_mem_cons.mpr ⟨hfirst, ih ?_ hrest⟩
      rw [List.length_drop]
      omega

theorem valid_flatten {parts : List (List UInt8)} (h : ∀ part ∈ parts, Valid part) : Valid parts.flatten := by
  induction parts with
  | nil => exact valid_nil
  | cons part parts ih =>
    obtain ⟨hhead, htail⟩ := List.forall_mem_cons.mp h
    exact hhead.append (ih htail)

/-- What is kept of a line of text are whole clusters. -/
theorem exists_kept {line : List UInt8} (h : AllText 0 line) (maxCells : Nat) (ambiguous : Ambiguous) :
    ∃ n, line.take (planTruncate line maxCells ambiguous).prefixLen = ((clusters line).take n).flatten := by
  obtain ⟨tokens, hlex, hpieces⟩ := pieces_allText h
  obtain ⟨n, hn⟩ : ∃ n, planned maxCells ambiguous.toWidth ((clusters line).map .cluster) =
      ((clusters line).take n).map .cluster := by
    refine ⟨(planned maxCells ambiguous.toWidth ((clusters line).map .cluster)).length, ?_⟩
    rw [List.map_take]
    exact planned_eq_take _
  refine ⟨n, ?_⟩
  have hlength : (planTruncate line maxCells ambiguous).prefixLen = ((clusters line).take n).flatten.length := by
    rw [planTruncate, planTruncateFrom_eq hlex none, hpieces]
    change total Piece.size (planned maxCells ambiguous.toWidth ((clusters line).map .cluster)) = _
    rw [hn, size_clusters, total_length]
  have hsplit : line = ((clusters line).take n).flatten ++ ((clusters line).drop n).flatten := by
    rw [← List.flatten_append, List.take_append_drop, flatten_clusters]
  rw [hlength]
  exact (congrArg (List.take _) hsplit).trans List.take_left

/-- The open line and the ring hold valid text. -/
structure Page.Valid (page : Page) : Prop extends page.Text where
  validLine : Utf8.Valid page.line.bytes
  validRing : ∀ line ∈ page.ring, Utf8.Valid line

theorem Page.Valid.commit {page : Page} (h : page.Valid) : (page.commitOpenLine planTruncate).Valid := by
  refine ⟨h.toText.commit, ?_, ?_⟩
  · rw [commitOpenLine_line]
    exact valid_nil
  · intro line hline
    rcases mem_commitOpenLine hline with hline | rfl
    · exact h.validRing line hline
    · obtain ⟨n, hn⟩ := exists_kept h.line page.maxLineCells page.ambiguous
      rw [hn]
      apply valid_flatten
      intro cluster hcluster
      exact valid_clusters (Nat.le_refl _) h.validLine cluster (List.mem_of_mem_take hcluster)

theorem Page.Valid.close {page : Page} (h : page.Valid) : (page.close planTruncate).Valid :=
  @Page.Valid.commit { page with finished := true } ⟨⟨h.line, h.ring⟩, h.validLine, h.validRing⟩

theorem Page.Valid.onPage {page : Page} (h : page.Valid) {op : Op}
    (hclears : ∀ text, op = .write text → Clears page.line text)
    (hlands : ∀ text, op = .write text → Lands page.line text) (hbytes : Utf8.Valid op.bytes) :
    (op.onPage page).Valid := by
  cases op with
  | write text =>
    exact ⟨h.toText.onPage hclears, (hlands text rfl).valid (hclears text rfl) h.validLine hbytes, h.validRing⟩
  | newline => exact h.commit
  | commit => exact h.commit
  | home => exact ⟨⟨h.line, h.ring⟩, h.validLine, h.validRing⟩
  | left => exact ⟨⟨h.line, h.ring⟩, h.validLine, h.validRing⟩

/-- What follows a run starts with a character. -/
theorem startsWhole_ops {line : OpenLine} {ops : List Op} (h : Along Lands line ops) :
    startsWhole (ops.flatMap Op.bytes) := by
  induction ops generalizing line with
  | nil => exact nofun
  | cons op ops ih =>
    have hrest := ih h.2
    rw [List.flatMap_cons]
    cases hbytes : op.bytes with
    | nil => exact hrest
    | cons byte bytes =>
      rintro first ⟨⟩
      cases op with
      | write text =>
        have hrun := (h.1 text rfl).run
        rw [show text = byte :: bytes from hbytes] at hrun
        exact hrun byte rfl
      | newline =>
        cases hbytes
        decide
      | _ => cases hbytes

/-- Clean runs of valid text leave valid text in every state of the page. -/
theorem Page.Valid.run {page : Page} (h : page.Valid) {ops : List Op} (hclears : Along Clears page.line ops)
    (hlands : Along Lands page.line ops) (hbytes : Utf8.Valid (ops.flatMap Op.bytes)) :
    (ops.foldl Op.onPage page).Valid := by
  induction ops generalizing page with
  | nil => exact h
  | cons op ops ih =>
    rw [List.flatMap_cons] at hbytes
    obtain ⟨hhead, htail⟩ := hbytes.split (startsWhole_ops hlands.2)
    refine ih (h.onPage hclears.1 hlands.1 hhead) ?_ ?_ htail
    · rw [onPage_line]
      exact hclears.2
    · rw [onPage_line]
      exact hlands.2

theorem valid_intercalate {lines : List (List UInt8)} (h : ∀ line ∈ lines, Valid line) :
    Valid (List.intercalate [kNewline] lines) :=
  intercalate_induction valid_nil (fun _ _ => Valid.append) ⟨['\n'], rfl⟩ h

/-! ## The transcript -/

/-- A closed page has no open line. -/
theorem render_close (page : Page) :
    (page.close planTruncate).render = List.intercalate [kNewline] (page.close planTruncate).ring := by
  rw [Page.render, if_pos]
  rw [Page.close, commitOpenLine_line]
  rfl

/-- When no run of a stream splits a character, the transcript is scanned as text throughout, and it is
valid if the text of the stream is. -/
theorem transcript_clean (maxLineCells maxLines : Nat) (ambiguous : Ambiguous) (reads : List (List UInt8))
    (h : Splices (itemsOf reads)) :
    ∃ t, transcript planTruncate width maxLineCells maxLines ambiguous reads = some t ∧
      (∃ tokens, forEachToken t.rendered = some tokens ∧ ∀ token ∈ tokens, token.kind = .text) ∧
      (Valid (textOf (itemsOf reads)) → Valid t.rendered) := by
  have hnew : (Page.new maxLineCells maxLines ambiguous).Valid := ⟨⟨trivial, nofun⟩, valid_nil, nofun⟩
  refine ⟨_, transcript_eq planTruncate width maxLineCells maxLines ambiguous reads, ?_, ?_⟩
  · have htext := hnew.toText.run h.clears
    rw [foldl_ops] at htext
    simp only [render_close]
    exact forEachToken_allText (allText_intercalate htext.close.ring)
  · intro hvalid
    have hpage := hnew.run h.clears (h.lands hvalid) (by rw [bytes_ops]; exact hvalid)
    rw [foldl_ops] at hpage
    simp only [render_close]
    exact valid_intercalate hpage.close.validRing

/-- A letter written over another, and the rest of the line stays. -/
theorem transcript_clean_overwrite :
    ∃ t, transcript planTruncate width 80 64 .narrow [[0x61, 0x62], [0x0D, 0x58, 0x0A]] = some t ∧
      (∃ tokens, forEachToken t.rendered = some tokens ∧ ∀ token ∈ tokens, token.kind = .text) ∧
      (Valid (textOf (itemsOf [[0x61, 0x62], [0x0D, 0x58, 0x0A]])) → Valid t.rendered) := by
  apply transcript_clean
  have hops : ops (itemsOf [[0x61, 0x62], [0x0D, 0x58, 0x0A]]) =
      [.write [0x61, 0x62], .home, .write [0x58], .newline] := by decide
  constructor
  · rw [hops]
    refine ⟨?_, nofun, ?_, nofun, trivial⟩
    · rintro text ⟨⟩
      exact ⟨⟨.inr rfl, .inr rfl, trivial⟩, nofun⟩
    · rintro text ⟨⟩
      refine ⟨⟨.inr rfl, trivial⟩, ?_⟩
      rintro byte ⟨⟩
      rfl
  · intro
    rw [hops]
    refine ⟨?_, nofun, ?_, nofun, trivial⟩
    · rintro text ⟨⟩
      refine ⟨?_, nofun⟩
      rintro byte ⟨⟩
      rfl
    · rintro text ⟨⟩
      constructor
      · rintro byte ⟨⟩
        rfl
      · rintro byte ⟨⟩
        rfl

/-- A letter written over the first byte of a character leaves the others, which are controls. -/
theorem transcript_splits_character :
    ∃ t, transcript planTruncate width 80 64 .narrow [[0xE6, 0x96, 0x87, 0x0D, 0x58]] = some t ∧
      Valid (textOf (itemsOf [[0xE6, 0x96, 0x87, 0x0D, 0x58]])) ∧
      (forEachToken t.rendered).map (List.map Token.kind) = some [.text, .control, .control] ∧
      ¬ Valid t.rendered := by
  have hrendered : (transcript planTruncate width 80 64 .narrow [[0xE6, 0x96, 0x87, 0x0D, 0x58]]).map
      Transcript.rendered = some [0x58, 0x96, 0x87] := by decide +kernel
  obtain ⟨t, ht, hbytes⟩ := Option.map_eq_some_iff.mp hrendered
  refine ⟨t, ht, ⟨['文', 'X'], by decide⟩, ?_, ?_⟩
  · rw [hbytes]
    decide
  · rw [hbytes]
    rintro ⟨cs, hcs⟩
    have hread := Str.fromUtf8_encode cs
    rw [hcs] at hread
    cases hread

end SupraHarness.Shell
