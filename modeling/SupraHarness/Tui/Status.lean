import SupraHarness.Lib.Str
import SupraHarness.Width.Cells

/-!
# The status line

A line of segments on a terminal of some width. Whole classes of segments are shed from the
highest down until the rest fits; what is kept is then written cluster by cluster into the room
there is.
-/
namespace SupraHarness.Tui

open Utf8 Width Fitting

/-- Which style colours a segment. -/
inductive Token where
  | plain | input | answer | thinking | tool | error | muted | accent
  deriving DecidableEq, Repr

structure StatusSegment where
  shedAt : Nat
  text : List Char
  token : Token
  deriving DecidableEq, Repr

def neverShed : Nat := 0

def firstShed : Nat := 1

def fullSeparator : List Char := [' ', ' ']

def compactSeparator : List Char := [' ']

def usizeMax : Nat := 2 ^ 64 - 1

def saturatingAdd (a b : Nat) : Nat := min (a + b) usizeMax

def saturatingMul (a b : Nat) : Nat := min (a * b) usizeMax

def widthOf (text : List Char) (ambiguous : Ambiguous) : Nat := wcswidth (encode text) ambiguous

/-- A segment behind its shed class and the cells it takes. -/
def measured (segments : List StatusSegment) (ambiguous : Ambiguous) : List (Nat × Nat × StatusSegment) :=
  segments.map fun segment => (segment.shedAt, widthOf segment.text ambiguous, segment)

def totalWidth (segments : List (Nat × Nat × StatusSegment)) (separator : List Char) : Nat :=
  segments.foldl (fun sum segment => saturatingAdd sum segment.2.1)
    (saturatingMul (segments.length - 1) (encode separator).length)

def fits (segments : List (Nat × Nat × StatusSegment)) (cols : Nat) (separator : List Char) : Bool :=
  totalWidth segments separator ≤ cols

/-! ## Shedding -/

section Shedding

variable {α : Type} (cls : α → Nat) (room : List α → Bool)

/-- The highest class that may be shed. -/
def highest (keep : List α) : Option Nat := ((keep.map cls).filter fun c => neverShed < c).max?

/-- The loop of `select_segments`; every pass sheds a segment, so it makes at most as many as there are. -/
def shedLoop : Nat → List α → List α
  | 0, keep => keep
  | fuel + 1, keep =>
    if room keep then keep
    else
      match highest cls keep with
      | none => keep
      | some c => shedLoop fuel (keep.filter fun a => cls a ≠ c)

theorem shedLoop_succ (fuel : Nat) (keep : List α) :
    shedLoop cls room (fuel + 1) keep =
      if room keep then keep
      else match highest cls keep with
        | none => keep
        | some c => shedLoop cls room fuel (keep.filter fun a => cls a ≠ c) := rfl

variable {cls} {room}

theorem highest_eq_none {keep : List α} (h : highest cls keep = none) : ∀ a ∈ keep, cls a = neverShed := by
  intro a ha
  by_contra hpos
  have hmem : cls a ∈ (keep.map cls).filter fun c => neverShed < c := by
    rw [List.mem_filter, decide_eq_true_iff]
    exact ⟨List.mem_map_of_mem ha, Nat.pos_of_ne_zero hpos⟩
  rw [highest, List.max?_eq_none_iff] at h
  rw [h] at hmem
  cases hmem

theorem highest_eq_some {keep : List α} {c : Nat} (h : highest cls keep = some c) :
    neverShed < c ∧ (∃ a ∈ keep, cls a = c) ∧ ∀ a ∈ keep, cls a ≤ c := by
  rw [highest, List.max?_eq_some_iff] at h
  obtain ⟨hmem, hmax⟩ := h
  rw [List.mem_filter, List.mem_map, decide_eq_true_iff] at hmem
  refine ⟨hmem.2, hmem.1, ?_⟩
  intro a ha
  rcases Nat.eq_zero_or_pos (cls a) with hzero | hpos
  · rw [hzero]
    exact Nat.zero_le c
  · apply hmax
    rw [List.mem_filter, decide_eq_true_iff]
    exact ⟨List.mem_map_of_mem ha, hpos⟩

/-- What is left after shedding: the segments up to some class, which fit or are never shed, while with any higher
class that would add one they do not fit. -/
structure ShedsFewest (cls : α → Nat) (room : List α → Bool) (all keep : List α) : Prop where
  upTo : ∃ t, keep = all.filter (fun a => cls a ≤ t) ∧
    ∀ t', t < t' → all.filter (fun a => cls a ≤ t') = keep ∨ room (all.filter fun a => cls a ≤ t') = false
  done : room keep = true ∨ ∀ a ∈ keep, cls a = neverShed

theorem shedLoop_fewest (all : List α) (fuel t : Nat) (hfuel : (all.filter fun a => cls a ≤ t).length ≤ fuel)
    (habove : ∀ t', t < t' → all.filter (fun a => cls a ≤ t') = all.filter (fun a => cls a ≤ t) ∨
      room (all.filter fun a => cls a ≤ t') = false) :
    ShedsFewest cls room all (shedLoop cls room fuel (all.filter fun a => cls a ≤ t)) := by
  induction fuel generalizing t with
  | zero =>
    refine ⟨⟨t, rfl, habove⟩, .inr ?_⟩
    intro a ha
    rw [shedLoop, List.length_eq_zero_iff.mp (Nat.le_zero.mp hfuel)] at ha
    cases ha
  | succ fuel ih =>
    rw [shedLoop_succ]
    by_cases hroom : room (all.filter fun a => cls a ≤ t)
    · rw [if_pos hroom]
      exact ⟨⟨t, rfl, habove⟩, .inl hroom⟩
    · rw [if_neg hroom]
      cases hhigh : highest cls (all.filter fun a => cls a ≤ t) with
      | none => exact ⟨⟨t, rfl, habove⟩, .inr (highest_eq_none hhigh)⟩
      | some c =>
        obtain ⟨hpos, ⟨top, htop, hc⟩, hmax⟩ := highest_eq_some hhigh
        have hct : c ≤ t := by
          rw [List.mem_filter, decide_eq_true_iff] at htop
          omega
        have hsame : ∀ t', c ≤ t' → t' ≤ t →
            all.filter (fun a => cls a ≤ t') = all.filter (fun a => cls a ≤ t) := by
          intro t' hlow hup
          apply List.filter_congr
          intro a ha
          rw [decide_eq_decide]
          constructor
          · exact fun h => h.trans hup
          · intro h
            exact (hmax a (List.mem_filter.mpr ⟨ha, by simpa using h⟩)).trans hlow
        have hnext : (all.filter fun a => cls a ≤ t).filter (fun a => cls a ≠ c) =
            all.filter fun a => cls a ≤ c - 1 := by
          rw [← hsame c (Nat.le_refl c) hct, List.filter_filter]
          apply List.filter_congr
          intro a _
          rw [← Bool.decide_and, decide_eq_decide]
          change 0 < c at hpos
          omega
        change ShedsFewest cls room all
          (shedLoop cls room fuel ((all.filter fun a => cls a ≤ t).filter fun a => cls a ≠ c))
        rw [hnext]
        apply ih
        · have hshorter : ((all.filter fun a => cls a ≤ t).filter fun a => cls a ≠ c).length <
              (all.filter fun a => cls a ≤ t).length := by
            apply List.length_filter_lt_length_iff_exists.mpr
            exact ⟨top, htop, by simp [hc]⟩
          rw [hnext] at hshorter
          omega
        · intro t' ht'
          right
          rcases Nat.lt_or_ge t t' with hlt | hge
          · rcases habove t' hlt with heq | hno
            · rw [heq]
              exact Bool.eq_false_iff.mpr hroom
            · exact hno
          · rw [hsame t' (by omega) hge]
            exact Bool.eq_false_iff.mpr hroom

end Shedding

def selectSegments (segments : List StatusSegment) (cols : Nat) (separator : List Char) (ambiguous : Ambiguous) :
    List (Nat × Nat × StatusSegment) :=
  shedLoop Prod.fst (fun keep => fits keep cols separator) segments.length (measured segments ambiguous)

theorem selectSegments_fewest (segments : List StatusSegment) (cols : Nat) (separator : List Char)
    (ambiguous : Ambiguous) :
    ShedsFewest Prod.fst (fun keep => fits keep cols separator) (measured segments ambiguous)
      (selectSegments segments cols separator ambiguous) := by
  obtain ⟨t, ht⟩ : ∃ t, ∀ a ∈ measured segments ambiguous, a.1 ≤ t := by
    refine ⟨total Prod.fst (measured segments ambiguous), ?_⟩
    intro a ha
    have hone := @total_le_of_sublist _ Prod.fst [a] (measured segments ambiguous) (List.singleton_sublist.mpr ha)
    simpa using hone
  have hall : ∀ t', t ≤ t' →
      (measured segments ambiguous).filter (fun a => a.1 ≤ t') = measured segments ambiguous := by
    intro t' hle
    rw [List.filter_eq_self]
    intro a ha
    simpa using (ht a ha).trans hle
  have hloop := @shedLoop_fewest _ Prod.fst (fun keep => fits keep cols separator) (measured segments ambiguous)
    segments.length t
    (by rw [hall t (Nat.le_refl t), measured, List.length_map])
    (by
      intro t' hlt
      rw [hall t' (Nat.le_of_lt hlt), hall t (Nat.le_refl t)]
      exact .inl rfl)
  rwa [hall t (Nat.le_refl t)] at hloop

/-! ## Writing -/

/-- What is written of a line: separators, and beginnings of segments in their style. -/
inductive Piece where
  | separator (text : List Char)
  | text (token : Token) (text : List Char)
  deriving DecidableEq, Repr

/-- The text of a piece without its style. -/
def Piece.plain : Piece → List Char
  | .separator written => written
  | .text _ written => written

/-- The cells a piece was charged: one for each byte of a separator. -/
def Piece.cells (ambiguous : Ambiguous) : Piece → Nat
  | .separator written => (encode written).length
  | .text _ written => widthOf written ambiguous

/-- The body of the loop of `render_segments`, behind the separator. -/
def writeText (ambiguous : Ambiguous) (remaining : Nat) (segment : StatusSegment) : List Char × Nat :=
  let bytes := encode segment.text
  let truncated := widthTruncate bytes remaining ambiguous
  (Str.fromUtf8Lossy (bytes.take truncated.1), truncated.2)

/-- The loop of `render_segments`; `index` is 0 for the first segment only. -/
def writeLoop (separator : List Char) (ambiguous : Ambiguous) : Nat → Nat → List StatusSegment → List Piece
  | _, _, [] => []
  | index, remaining, segment :: rest =>
    if 0 < index ∧ remaining < (encode separator).length then []
    else
      let front := if 0 < index then [Piece.separator separator] else []
      let room := if 0 < index then remaining - (encode separator).length else remaining
      if room = 0 then front
      else
        let written := writeText ambiguous room segment
        if written.1 = [] then front
        else front ++ .text segment.token written.1 :: writeLoop separator ambiguous (index + 1) (room - written.2) rest

theorem writeLoop_cons (separator : List Char) (ambiguous : Ambiguous) (index remaining : Nat)
    (segment : StatusSegment) (rest : List StatusSegment) :
    writeLoop separator ambiguous index remaining (segment :: rest) =
      if 0 < index ∧ remaining < (encode separator).length then []
      else
        let front := if 0 < index then [Piece.separator separator] else []
        let room := if 0 < index then remaining - (encode separator).length else remaining
        if room = 0 then front
        else
          let written := writeText ambiguous room segment
          if written.1 = [] then front
          else
            front ++ .text segment.token written.1 ::
              writeLoop separator ambiguous (index + 1) (room - written.2) rest :=
  rfl

def renderSegments (segments : List (Nat × Nat × StatusSegment)) (cols : Nat) (separator : List Char)
    (ambiguous : Ambiguous) : List Piece :=
  writeLoop separator ambiguous 0 cols (segments.map fun segment => segment.2.2)

structure StatusLine where
  segments : List StatusSegment
  compactSegments : Option (List StatusSegment)
  deriving DecidableEq, Repr

/-- `StatusLine::render`, as the pieces it paints. -/
def StatusLine.render (line : StatusLine) (cols : Nat) (ambiguous : Ambiguous) : List Piece :=
  if cols = 0 then []
  else
    let full := selectSegments line.segments cols fullSeparator ambiguous
    if fits full cols fullSeparator then renderSegments full cols fullSeparator ambiguous
    else
      match line.compactSegments with
      | none => renderSegments full cols fullSeparator ambiguous
      | some compact => renderSegments (measured compact ambiguous) cols compactSeparator ambiguous

/-! ### Cutting a text -/

theorem lengths_chars (cs : List Char) :
    lengths (cs.map fun c => ⟨c.toNat, c.utf8Size, true⟩) = (encode cs).length := by
  induction cs with
  | nil => rfl
  | cons c cs ih =>
    rw [List.map_cons, lengths_cons, ih, encode_cons, List.length_append, String.length_utf8EncodeChar]

/-- A text is cut between two of its characters, and its beginning is as wide as was counted. -/
theorem writeText_spec (ambiguous : Ambiguous) (remaining : Nat) (segment : StatusSegment) :
    (writeText ambiguous remaining segment).1 <+: segment.text ∧
      widthOf (writeText ambiguous remaining segment).1 ambiguous = (writeText ambiguous remaining segment).2 ∧
      (writeText ambiguous remaining segment).2 ≤ remaining ∧
      (widthOf segment.text ambiguous ≤ remaining → (writeText ambiguous remaining segment).1 = segment.text) := by
  have hcuts := widthTruncate_cuts (encode segment.text) remaining ambiguous
  obtain ⟨m, hm⟩ : ∃ m, (widthTruncate (encode segment.text) remaining ambiguous).1 =
      (encode (segment.text.take m)).length := by
    obtain ⟨m, hm⟩ := exists_scalars (encode segment.text) (kept (encode segment.text) remaining ambiguous).length
    refine ⟨m, ?_⟩
    rw [widthTruncate_eq, kept_eq_take, hm, scalars_encode, ← List.map_take, lengths_chars]
  have hsplit : encode segment.text = encode (segment.text.take m) ++ encode (segment.text.drop m) := by
    rw [← encode_append, List.take_append_drop]
  have hbytes : (encode segment.text).take (widthTruncate (encode segment.text) remaining ambiguous).1 =
      encode (segment.text.take m) := by
    rw [hm]
    conv_lhs => rw [hsplit]
    rw [List.take_left]
  have htext : (writeText ambiguous remaining segment).1 = segment.text.take m := by
    change Str.fromUtf8Lossy _ = _
    rw [hbytes, Str.fromUtf8Lossy_encode]
  have hwidth : (writeText ambiguous remaining segment).2 = widthOf (segment.text.take m) ambiguous := by
    change (widthTruncate _ _ _).2 = _
    rw [hcuts.measured, hbytes]
    rfl
  refine ⟨?_, ?_, hcuts.fits, ?_⟩
  · rw [htext]
    exact List.take_prefix m _
  · rw [htext, hwidth]
  · intro hfits
    have hwhole : (encode segment.text).length ≤ (widthTruncate (encode segment.text) remaining ambiguous).1 := by
      by_contra hlt
      have hlonger := hcuts.longest (encode segment.text).length (.inr (.inr rfl)) (Nat.lt_of_not_le hlt)
      rw [List.take_length] at hlonger
      exact absurd hfits (Nat.not_le.mpr hlonger)
    change Str.fromUtf8Lossy _ = _
    rw [List.take_of_length_le hwhole, Str.fromUtf8Lossy_encode]

/-! ### The room there is -/

variable {ambiguous : Ambiguous} {separator : List Char}

/-- One round: a separator at most, and then the beginning of a text and the rounds behind it. -/
theorem writeLoop_round (ambiguous : Ambiguous) (separator : List Char) (index remaining : Nat)
    (segment : StatusSegment) (rest : List StatusSegment) :
    ∃ front room, (∀ piece ∈ front, piece = Piece.separator separator) ∧
      total (Piece.cells ambiguous) front + room ≤ remaining ∧
        (writeLoop separator ambiguous index remaining (segment :: rest) = front ∨
          (writeText ambiguous room segment).1 ≠ [] ∧
            writeLoop separator ambiguous index remaining (segment :: rest) =
              front ++ .text segment.token (writeText ambiguous room segment).1 ::
                writeLoop separator ambiguous (index + 1) (room - (writeText ambiguous room segment).2) rest) := by
  rw [writeLoop_cons]
  by_cases hshort : 0 < index ∧ remaining < (encode separator).length
  · rw [if_pos hshort]
    exact ⟨[], 0, by simp, Nat.zero_le _, .inl rfl⟩
  · rw [if_neg hshort]
    refine ⟨if 0 < index then [Piece.separator separator] else [],
      if 0 < index then remaining - (encode separator).length else remaining, ?_, ?_, ?_⟩
    · by_cases hindex : 0 < index
      · simp [hindex]
      · simp [hindex]
    · by_cases hindex : 0 < index
      · rw [if_pos hindex, if_pos hindex, total_cons, total_nil, Piece.cells]
        omega
      · rw [if_neg hindex, if_neg hindex, total_nil]
        omega
    · dsimp only
      generalize (if 0 < index then remaining - (encode separator).length else remaining) = room
      by_cases hroom : room = 0
      · rw [if_pos hroom]
        exact .inl rfl
      · rw [if_neg hroom]
        by_cases hempty : (writeText ambiguous room segment).1 = []
        · rw [if_pos hempty]
          exact .inl rfl
        · rw [if_neg hempty]
          exact .inr ⟨hempty, rfl⟩

theorem writeLoop_le (index remaining : Nat) (segments : List StatusSegment) :
    total (Piece.cells ambiguous) (writeLoop separator ambiguous index remaining segments) ≤ remaining := by
  induction segments generalizing index remaining with
  | nil => exact Nat.zero_le _
  | cons segment rest ih =>
    obtain ⟨front, room, -, hfront, heq | ⟨-, heq⟩⟩ := writeLoop_round ambiguous separator index remaining segment rest
    · rw [heq]
      omega
    · obtain ⟨-, hwidth, hle, -⟩ := writeText_spec ambiguous room segment
      have hrest := ih (index + 1) (room - (writeText ambiguous room segment).2)
      rw [heq, total_append, total_cons, Piece.cells, hwidth]
      omega

/-- Every text that is written is a beginning of a segment's, and is not empty. -/
theorem writeLoop_begins (index remaining : Nat) (segments : List StatusSegment) {token : Token} {text : List Char}
    (h : .text token text ∈ writeLoop separator ambiguous index remaining segments) :
    text ≠ [] ∧ ∃ segment ∈ segments, segment.token = token ∧ text <+: segment.text := by
  induction segments generalizing index remaining with
  | nil => cases h
  | cons segment rest ih =>
    obtain ⟨front, room, hfront, -, heq | ⟨hne, heq⟩⟩ :=
      writeLoop_round ambiguous separator index remaining segment rest
    · rw [heq] at h
      cases hfront _ h
    · rw [heq, List.mem_append, List.mem_cons] at h
      rcases h with h | h | h
      · cases hfront _ h
      · cases h
        exact ⟨hne, segment, List.mem_cons_self, rfl, (writeText_spec ambiguous room segment).1⟩
      · obtain ⟨hne, found, hmem, hfound⟩ := ih _ _ h
        exact ⟨hne, found, List.mem_cons_of_mem _ hmem, hfound⟩

/-- A line with all its segments. -/
def whole (separator : List Char) : Nat → List StatusSegment → List Piece
  | _, [] => []
  | index, segment :: rest =>
    (if 0 < index then [Piece.separator separator] else []) ++
      .text segment.token segment.text :: whole separator (index + 1) rest

theorem whole_cons (index : Nat) (segment : StatusSegment) (rest : List StatusSegment) :
    whole separator index (segment :: rest) = (if 0 < index then [Piece.separator separator] else []) ++
      .text segment.token segment.text :: whole separator (index + 1) rest := rfl

/-- A line that has room is written whole, unless a segment takes no cells. -/
theorem writeLoop_whole (index remaining : Nat) (segments : List StatusSegment)
    (hroom : total (Piece.cells ambiguous) (whole separator index segments) ≤ remaining)
    (hwide : ∀ segment ∈ segments, 0 < widthOf segment.text ambiguous) :
    writeLoop separator ambiguous index remaining segments = whole separator index segments := by
  induction segments generalizing index remaining with
  | nil => rfl
  | cons segment rest ih =>
    have hpos := hwide segment List.mem_cons_self
    have hne : segment.text ≠ [] := by
      intro hnil
      rw [hnil] at hpos
      exact absurd hpos (Nat.lt_irrefl 0)
    rw [whole_cons, total_append, total_cons, Piece.cells] at hroom
    rw [writeLoop_cons, whole_cons]
    have hsep : 0 < index → (encode separator).length + (widthOf segment.text ambiguous +
        total (Piece.cells ambiguous) (whole separator (index + 1) rest)) ≤ remaining := by
      intro hindex
      rw [if_pos hindex, total_cons, total_nil, Piece.cells] at hroom
      omega
    have hleft : widthOf segment.text ambiguous + total (Piece.cells ambiguous) (whole separator (index + 1) rest) ≤
        (if 0 < index then remaining - (encode separator).length else remaining) := by
      split_ifs with hindex
      · have hall := hsep hindex
        omega
      · omega
    rw [if_neg fun h => absurd (hsep h.1) (by omega)]
    dsimp only
    generalize (if 0 < index then remaining - (encode separator).length else remaining) = room at hleft ⊢
    obtain ⟨-, hwidth, -, hall⟩ := writeText_spec ambiguous room segment
    have htext := hall (by omega)
    rw [htext] at hwidth
    rw [if_neg (by omega), htext, if_neg hne, ih (index + 1) _ (by omega) fun other hmem =>
      hwide other (List.mem_cons_of_mem _ hmem)]

/-! ### A line -/

theorem foldl_saturatingAdd (segments : List (Nat × Nat × StatusSegment)) (start : Nat) (h : start ≤ usizeMax) :
    segments.foldl (fun sum segment => saturatingAdd sum segment.2.1) start =
      min (start + total (fun segment => segment.2.1) segments) usizeMax := by
  induction segments generalizing start with
  | nil =>
    rw [List.foldl_nil, total_nil]
    omega
  | cons segment rest ih =>
    have hstart : saturatingAdd start segment.2.1 ≤ usizeMax := min_le_right _ _
    rw [List.foldl_cons, ih _ hstart, total_cons, saturatingAdd]
    omega

theorem cells_whole_succ (index : Nat) (segments : List StatusSegment) :
    total (Piece.cells ambiguous) (whole separator (index + 1) segments) =
      segments.length * (encode separator).length + total (fun segment => widthOf segment.text ambiguous) segments := by
  induction segments generalizing index with
  | nil => simp [whole]
  | cons segment rest ih =>
    rw [whole_cons, if_pos (Nat.succ_pos index), total_append, total_cons, total_cons, ih, total_cons, total_nil,
      List.length_cons, Nat.succ_mul]
    simp only [Piece.cells]
    omega

theorem cells_whole_zero (segments : List StatusSegment) :
    total (Piece.cells ambiguous) (whole separator 0 segments) =
      (segments.length - 1) * (encode separator).length +
        total (fun segment => widthOf segment.text ambiguous) segments := by
  cases segments with
  | nil => simp [whole]
  | cons segment rest =>
    rw [whole_cons, if_neg (Nat.lt_irrefl 0), List.nil_append, total_cons, cells_whole_succ, total_cons,
      List.length_cons, Nat.add_sub_cancel]
    simp only [Piece.cells]
    omega

/-- The width the shedding loop compares is that of the whole line, but for saturation. -/
theorem totalWidth_eq {keep : List (Nat × Nat × StatusSegment)}
    (h : ∀ item ∈ keep, item.2.1 = widthOf item.2.2.text ambiguous) :
    totalWidth keep separator =
      min (total (Piece.cells ambiguous) (whole separator 0 (keep.map fun item => item.2.2))) usizeMax := by
  have hsum : total (fun item => item.2.1) keep =
      total (fun segment => widthOf segment.text ambiguous) (keep.map fun item => item.2.2) := by
    rw [total, total, List.map_map]
    exact congrArg List.sum (List.map_congr_left h)
  have hstart : saturatingMul (keep.length - 1) (encode separator).length ≤ usizeMax := min_le_right _ _
  rw [totalWidth, foldl_saturatingAdd _ _ hstart, hsum, cells_whole_zero, List.length_map, saturatingMul]
  omega

theorem mem_measured {segments : List StatusSegment} {item : Nat × Nat × StatusSegment}
    (h : item ∈ measured segments ambiguous) :
    item.1 = item.2.2.shedAt ∧ item.2.1 = widthOf item.2.2.text ambiguous ∧ item.2.2 ∈ segments := by
  obtain ⟨segment, hmem, rfl⟩ := List.mem_map.mp h
  exact ⟨rfl, rfl, hmem⟩

theorem selectSegments_subset {segments : List StatusSegment} {cols : Nat} {item : Nat × Nat × StatusSegment}
    (h : item ∈ selectSegments segments cols separator ambiguous) : item ∈ measured segments ambiguous := by
  obtain ⟨t, hkeep, -⟩ := (selectSegments_fewest segments cols separator ambiguous).upTo
  rw [hkeep] at h
  exact (List.mem_filter.mp h).1

/-- What is kept of a line is every segment up to some class, in order, the protected ones among them; it fits, or
only they are left; and with one more of the classes that were shed it would not have fitted. -/
theorem segments_shed_fewest (segments : List StatusSegment) (cols : Nat) (separator : List Char)
    (ambiguous : Ambiguous) :
    ∃ t, selectSegments segments cols separator ambiguous =
        (measured segments ambiguous).filter (fun item => item.1 ≤ t) ∧
      (∀ segment ∈ segments, segment.shedAt = neverShed →
        (segment.shedAt, widthOf segment.text ambiguous, segment) ∈ selectSegments segments cols separator ambiguous) ∧
      (fits (selectSegments segments cols separator ambiguous) cols separator = true ∨
        ∀ item ∈ selectSegments segments cols separator ambiguous, item.1 = neverShed) ∧
      ∀ segment ∈ segments, t < segment.shedAt →
        fits ((measured segments ambiguous).filter fun item => item.1 ≤ segment.shedAt) cols separator = false := by
  obtain ⟨⟨t, hkeep, habove⟩, hdone⟩ := selectSegments_fewest segments cols separator ambiguous
  refine ⟨t, hkeep, ?_, hdone, ?_⟩
  · intro segment hmem hnever
    rw [hkeep, List.mem_filter]
    exact ⟨List.mem_map_of_mem hmem, by simp [hnever, neverShed]⟩
  · intro segment hmem hshed
    rcases habove segment.shedAt hshed with heq | hno
    · have hin : (segment.shedAt, widthOf segment.text ambiguous, segment) ∈
          (measured segments ambiguous).filter fun item => item.1 ≤ segment.shedAt :=
        List.mem_filter.mpr ⟨List.mem_map_of_mem hmem, by simp⟩
      rw [heq, hkeep, List.mem_filter] at hin
      exact absurd hin.2 (by simpa using hshed)
    · exact hno

/-- A line is written in one form or the other, from segments it has. -/
theorem StatusLine.render_cases (line : StatusLine) (cols : Nat) (ambiguous : Ambiguous) :
    line.render cols ambiguous = [] ∨
      ∃ separator segments, line.render cols ambiguous = writeLoop separator ambiguous 0 cols segments ∧
        ∀ segment ∈ segments, segment ∈ line.segments ++ line.compactSegments.getD [] := by
  have hfull : ∀ segment ∈ (selectSegments line.segments cols fullSeparator ambiguous).map fun item => item.2.2,
      segment ∈ line.segments ++ line.compactSegments.getD [] := by
    intro segment hmem
    obtain ⟨item, hitem, rfl⟩ := List.mem_map.mp hmem
    exact List.mem_append_left _ (mem_measured (selectSegments_subset hitem)).2.2
  unfold StatusLine.render
  by_cases hcols : cols = 0
  · rw [if_pos hcols]
    exact .inl rfl
  · rw [if_neg hcols]
    right
    dsimp only
    split_ifs
    · exact ⟨_, _, rfl, hfull⟩
    · cases hcompact : line.compactSegments with
      | none =>
        rw [hcompact] at hfull
        exact ⟨_, _, rfl, hfull⟩
      | some compact =>
        refine ⟨_, _, rfl, ?_⟩
        intro segment hmem
        obtain ⟨item, hitem, rfl⟩ := List.mem_map.mp hmem
        exact List.mem_append_right _ (mem_measured hitem).2.2

/-- Charged cell by cell, the pieces of a line never take more room than there is; every text among them is a beginning
of a segment's, and is not empty; and when what is kept fits, and nothing of it is without width, all of it is written
as it stands. -/
theorem render_within_and_whole (line : StatusLine) (cols : Nat) (ambiguous : Ambiguous) :
    total (Piece.cells ambiguous) (line.render cols ambiguous) ≤ cols ∧
      (∀ token text, .text token text ∈ line.render cols ambiguous → text ≠ [] ∧
        ∃ segment ∈ line.segments ++ line.compactSegments.getD [], segment.token = token ∧ text <+: segment.text) ∧
      (0 < cols → cols < usizeMax →
        fits (selectSegments line.segments cols fullSeparator ambiguous) cols fullSeparator = true →
        (∀ item ∈ selectSegments line.segments cols fullSeparator ambiguous, 0 < item.2.1) →
        line.render cols ambiguous =
          whole fullSeparator 0
            ((selectSegments line.segments cols fullSeparator ambiguous).map fun item => item.2.2)) := by
  refine ⟨?_, ?_, ?_⟩
  · obtain hnone | ⟨separator, segments, heq, -⟩ := line.render_cases cols ambiguous
    · rw [hnone]
      exact Nat.zero_le _
    · rw [heq]
      exact writeLoop_le 0 cols segments
  · intro token text h
    obtain hnone | ⟨separator, segments, heq, hsegments⟩ := line.render_cases cols ambiguous
    · rw [hnone] at h
      cases h
    · rw [heq] at h
      obtain ⟨hne, segment, hmem, hsegment⟩ := writeLoop_begins 0 cols segments h
      exact ⟨hne, segment, hsegments segment hmem, hsegment⟩
  · intro hpos hsmall hfits hwide
    have hitems : ∀ item ∈ selectSegments line.segments cols fullSeparator ambiguous,
        item.2.1 = widthOf item.2.2.text ambiguous := fun item hitem => (mem_measured (selectSegments_subset hitem)).2.1
    unfold StatusLine.render
    rw [if_neg (Nat.ne_of_gt hpos)]
    dsimp only
    rw [if_pos hfits]
    apply writeLoop_whole
    · have hwidth := @totalWidth_eq ambiguous fullSeparator _ hitems
      rw [fits, decide_eq_true_iff, hwidth] at hfits
      omega
    · intro segment hmem
      obtain ⟨item, hitem, rfl⟩ := List.mem_map.mp hmem
      rw [← hitems item hitem]
      exact hwide item hitem

end SupraHarness.Tui
