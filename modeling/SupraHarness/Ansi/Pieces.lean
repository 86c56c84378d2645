import SupraHarness.Ansi.Bytewise
import SupraHarness.Ansi.Style
import SupraHarness.Width.Cells

/-!
# The pieces of a line

A line that is scanned at once is a list of tokens, and with its text runs taken apart a list of
pieces, clusters and sequences. A line that is cut behind a whole piece has the pieces in front of
the cut, whatever escape sequence follows.
-/
namespace SupraHarness.Ansi

open Width Fitting

/-! ## Tokens -/

/-- The scanner between two tokens. -/
def Scanner.between (pos : Nat) (seq : Sequence) : Scanner := ⟨.ground, pos, false, 0, seq, 0⟩

/-- The tokens of the bytes from a place on. -/
inductive Lexes : Nat → Sequence → List UInt8 → List Token → Prop where
  | done {pos : Nat} {seq : Sequence} : Lexes pos seq [] []
  | stuck {pos : Nat} {seq : Sequence} {rest : List UInt8} {sc : Scanner} (hne : rest ≠ [])
      (h : scanLoop pos rest (.between pos seq) = (sc, none)) :
      Lexes pos seq rest [emit sc.seq .malformed pos rest.length 0]
  | token {pos : Nat} {seq : Sequence} {rest : List UInt8} {sc : Scanner} {token : Token} {tokens : List Token}
      (h : scanLoop pos rest (.between pos seq) = (sc, some token))
      (hrest : Lexes (pos + token.length) sc.seq (rest.drop token.length) tokens) :
      Lexes pos seq rest (token :: tokens)

/-! ### Text runs -/

/-- The text loop over a beginning of what it consumes, and then over something else. -/
theorem textRun_append {e : Nat} {l : List UInt8} {m : Nat} (h : m ≤ (textRun e l).1) (more : List UInt8) :
    textRun e (l.take m ++ more) =
      ((textRun (textRun e (l.take m)).2 more).1 + m, (textRun (textRun e (l.take m)).2 more).2) := by
  induction m generalizing e l with
  | zero => simp [textRun]
  | succ m ih =>
    cases l with
    | nil => simp [textRun] at h
    | cons byte rest =>
      rw [List.take_succ_cons, List.cons_append]
      rw [textRun] at h
      by_cases hm : midCharacter e byte = true
      · rw [if_pos hm] at h
        rw [textRun, if_pos hm, textRun, if_pos hm, ih (Nat.le_of_succ_le_succ h)]
        rfl
      · rw [if_neg hm] at h
        by_cases hs : stopsText byte = true
        · rw [if_pos hs] at h
          exact absurd h (by simp)
        · rw [if_neg hs] at h
          rw [textRun, if_neg hm, if_neg hs, textRun, if_neg hm, if_neg hs, ih (Nat.le_of_succ_le_succ h)]
          rfl

/-- What ends a text run behind some of its bytes. -/
def Ends (e : Nat) (more : List UInt8) : Prop := more = [] ∨ textRun e more = (0, 0)

/-- The first byte decides. -/
theorem textRun_stops {e : Nat} {byte : UInt8} {rest : List UInt8} (h : (textRun e (byte :: rest)).1 = 0)
    (more : List UInt8) : textRun e (byte :: more) = (0, 0) := by
  rw [textRun] at h ⊢
  by_cases hm : midCharacter e byte = true
  · rw [if_pos hm] at h
    exact absurd h (by simp)
  · rw [if_neg hm] at h ⊢
    by_cases hs : stopsText byte = true
    · rw [if_pos hs]
    · rw [if_neg hs] at h
      exact absurd h (by simp)

/-- The byte behind a text run ends it, and drops the expectation. -/
theorem textRun_behind {e : Nat} {l : List UInt8} {byte : UInt8} {rest : List UInt8}
    (h : l.drop (textRun e l).1 = byte :: rest) :
    (∀ more, textRun (textRun e (l.take (textRun e l).1)).2 (byte :: more) = (0, 0)) ∧ (textRun e l).2 = 0 := by
  have hwhole := textRun_append (Nat.le_refl (textRun e l).1) (l.drop (textRun e l).1)
  rw [List.take_append_drop, h] at hwhole
  have hzero := congrArg Prod.fst hwhole
  simp only at hzero
  have hstops := @textRun_stops (textRun e (l.take (textRun e l).1)).2 byte rest (by omega)
  refine ⟨hstops, ?_⟩
  rw [hstops rest] at hwhole
  exact congrArg Prod.snd hwhole

theorem ends_escape (e : Nat) (more : List UInt8) : Ends e (kEsc :: more) := by
  right
  have hm : midCharacter e kEsc = false := by
    have hesc : isContinuation kEsc = false := by decide
    rw [midCharacter, hesc, Bool.and_false]
  rw [textRun, hm]
  rfl

/-- A whole text run ends where it ended. -/
theorem ends_behind {e : Nat} {l : List UInt8} (j : Nat) {more : List UInt8} (hmore : ∀ e, Ends e more) :
    Ends (textRun e (l.take (textRun e l).1)).2 ((l.drop (textRun e l).1).take j ++ more) := by
  cases hdrop : l.drop (textRun e l).1 with
  | nil => simpa using hmore _
  | cons byte rest =>
    cases j with
    | zero => simpa using hmore _
    | succ j =>
      rw [List.take_succ_cons, List.cons_append]
      exact Or.inr ((textRun_behind hdrop).1 _)

/-! ### Sequences -/

/-- The scanner inside a sequence, and the bytes it takes for the rest of it. -/
theorem scanLoop_inside {start : Nat} {rest : List UInt8} {sc sc' : Scanner} {token : Token}
    (hs : sc.state ≠ .ground) (hstart : start < sc.pos) (hexpect : sc.utf8Expect = 0)
    (hdone : sc.bufferDone = false) (hcarried : sc.carried = 0)
    (h : scanLoop start rest sc = (sc', some token)) :
    ∃ n, 0 < n ∧ n ≤ rest.length ∧ sc' = .between (sc.pos + n) sc'.seq ∧
      (token.kind ≠ .text ∧ token.kind ≠ .part) ∧ token.offset = start ∧ start + token.length = sc.pos + n ∧
      ∀ more, scanLoop start (rest.take n ++ more) sc = (sc', some token) := by
  induction rest generalizing sc with
  | nil => cases h
  | cons byte rest ih =>
    have hno : ¬ (sc.state = .ground ∧ startsText sc.utf8Expect byte = true) := fun hg => hs hg.1
    have hfits := dispatch_fits sc.state sc.seq byte
    rw [scanLoop, if_neg hno] at h
    cases hd : dispatch sc.state sc.seq byte with
    | advance state seq =>
      rw [hd] at h hfits
      obtain ⟨n, hpos, hle, hsc, hkind, hoffset, hlength, hmore⟩ :=
        @ih { sc with pos := sc.pos + 1, state := state, seq := seq } hfits (Nat.lt_succ_of_lt hstart) hexpect
          hdone hcarried h
      refine ⟨n + 1, Nat.succ_pos n, Nat.succ_le_succ hle, ?_, hkind, hoffset, ?_, ?_⟩
      · rw [hsc]
        simp [Scanner.between, Nat.add_assoc, Nat.add_comm 1 n]
      · simp only at hlength
        omega
      · intro more
        rw [List.take_succ_cons, List.cons_append, scanLoop, if_neg hno, hd]
        exact hmore more
    | report seq kind finalByte =>
      rw [hd] at h hfits
      cases h
      refine ⟨1, Nat.one_pos, by simp, ?_, hfits.2, rfl, ?_, ?_⟩
      · simp [Scanner.between, hdone, hexpect]
      · simp only [emit]
        omega
      · intro more
        rw [List.take_succ_cons, List.take_zero, List.cons_append, scanLoop, if_neg hno, hd]
    | control seq finalByte =>
      rw [hd] at hfits
      exact absurd hfits hs

/-- The first byte of a token that is no text. -/
theorem scanLoop_between (pos : Nat) (seq : Sequence) {byte : UInt8} (rest : List UInt8)
    (h : ¬ startsText 0 byte = true) :
    scanLoop pos (byte :: rest) (.between pos seq) =
      match dispatch .ground seq byte with
      | .advance state seq => scanLoop pos rest ⟨state, pos + 1, false, 0, seq, 0⟩
      | .report seq kind finalByte =>
        (.between (pos + 1) (clearSequence seq), some (emit seq kind pos (pos + 1 - pos) finalByte))
      | .control seq finalByte => (.between (pos + 1) seq, some (emitSimple .control (pos + 1 - 1) 1 finalByte)) := by
  rw [scanLoop, if_neg fun hg => h hg.2]
  rfl

/-- A token that is no text, at the front of what is left of a line. -/
theorem sequence_between {pos : Nat} {seq : Sequence} {rest : List UInt8} {sc : Scanner} {token : Token}
    (h : scanLoop pos rest (.between pos seq) = (sc, some token)) (hkind : token.kind ≠ .text) :
    0 < token.length ∧ token.length ≤ rest.length ∧ token.offset = pos ∧ token.kind ≠ .part ∧
      sc = .between (pos + token.length) sc.seq ∧
      ∀ more, scanLoop pos (rest.take token.length ++ more) (.between pos seq) = (sc, some token) := by
  cases rest with
  | nil => cases h
  | cons byte rest =>
    by_cases ht : startsText 0 byte = true
    · rw [scanLoop, if_pos ⟨rfl, ht⟩] at h
      cases h
      exact absurd rfl hkind
    have hfits := dispatch_fits .ground seq byte
    rw [scanLoop_between pos seq rest ht] at h
    cases hd : dispatch .ground seq byte with
    | advance state next =>
      rw [hd] at h hfits
      obtain ⟨n, hpos, hle, hsc, hkinds, hoffset, hlength, hmore⟩ :=
        @scanLoop_inside pos rest ⟨state, pos + 1, false, 0, next, 0⟩ sc token hfits (Nat.lt_succ_self pos) rfl rfl rfl h
      have hn : token.length = n + 1 := by
        simp only at hlength
        omega
      rw [hn]
      refine ⟨Nat.succ_pos n, Nat.succ_le_succ hle, hoffset, hkinds.2, ?_, ?_⟩
      · rw [hsc]
        simp [Scanner.between, Nat.add_assoc, Nat.add_comm 1 n]
      · intro more
        rw [List.take_succ_cons, List.cons_append, scanLoop_between pos seq _ ht, hd]
        exact hmore more
    | report next kind finalByte =>
      rw [hd] at hfits
      exact absurd rfl hfits.1
    | control next finalByte =>
      rw [hd] at h
      cases h
      refine ⟨Nat.one_pos, by simp [emitSimple, emit], ?_, by rintro ⟨⟩, rfl, ?_⟩
      · simp [emitSimple, emit]
      · intro more
        rw [emitSimple, emit, List.take_succ_cons, List.take_zero, List.cons_append, scanLoop_between pos seq _ ht, hd]
        rfl

/-- A text run, at the front of what is left of a line. -/
theorem text_between {pos : Nat} {seq : Sequence} {rest : List UInt8} {sc : Scanner} {token : Token}
    (h : scanLoop pos rest (.between pos seq) = (sc, some token)) (hkind : token.kind = .text) :
    token = emitSimple .text pos (textRun 0 rest).1 0 ∧ 0 < (textRun 0 rest).1 ∧
      sc = ⟨.ground, pos + (textRun 0 rest).1, false, (textRun 0 rest).2, seq, 0⟩ ∧
      ∀ m more, 0 < m → m ≤ (textRun 0 rest).1 → Ends (textRun 0 (rest.take m)).2 more →
        scanLoop pos (rest.take m ++ more) (.between pos seq) =
          (⟨.ground, pos + m, false, (textRun 0 (rest.take m ++ more)).2, seq, 0⟩, some (emitSimple .text pos m 0)) := by
  cases rest with
  | nil => cases h
  | cons byte rest =>
    by_cases ht : startsText 0 byte = true
    · rw [scanLoop, if_pos ⟨rfl, ht⟩] at h
      cases h
      refine ⟨rfl, textRun_pos ht rest, rfl, ?_⟩
      intro m more hpos hle hends
      have hrun := textRun_append hle more
      obtain ⟨m, rfl⟩ : ∃ j, m = j + 1 := ⟨m - 1, by omega⟩
      have hstop : (textRun (textRun 0 ((byte :: rest).take (m + 1))).2 more).1 = 0 := by
        rcases hends with rfl | hends
        · rfl
        · rw [hends]
      rw [hstop, Nat.zero_add] at hrun
      rw [List.take_succ_cons, List.cons_append] at hrun ⊢
      rw [scanLoop, if_pos ⟨rfl, ht⟩]
      simp only [Scanner.between, hrun]
    · exfalso
      have hfits := dispatch_fits .ground seq byte
      rw [scanLoop_between pos seq rest ht] at h
      cases hd : dispatch .ground seq byte with
      | advance state next =>
        rw [hd] at h hfits
        obtain ⟨n, -, -, -, hno, -⟩ :=
          @scanLoop_inside pos rest ⟨state, pos + 1, false, 0, next, 0⟩ sc token hfits (Nat.lt_succ_self pos) rfl rfl rfl h
        exact hno.1 hkind
      | report next kind finalByte =>
        rw [hd] at hfits
        exact hfits.1 rfl
      | control next finalByte =>
        rw [hd] at h
        cases h
        cases hkind

/-- What every token of a line is. -/
theorem token_between {pos : Nat} {seq : Sequence} {rest : List UInt8} {sc : Scanner} {token : Token}
    (h : scanLoop pos rest (.between pos seq) = (sc, some token)) :
    0 < token.length ∧ token.length ≤ rest.length ∧ token.offset = pos ∧
      (sc = .between (pos + token.length) sc.seq ∨
        rest.drop token.length = [] ∧ ∃ e, sc = ⟨.ground, pos + token.length, false, e, sc.seq, 0⟩) := by
  by_cases hkind : token.kind = .text
  · obtain ⟨rfl, hpos, rfl, -⟩ := text_between h hkind
    refine ⟨hpos, textRun_le 0 rest, rfl, ?_⟩
    cases hdrop : rest.drop (textRun 0 rest).1 with
    | nil => exact Or.inr ⟨hdrop, _, rfl⟩
    | cons byte more =>
      left
      rw [(textRun_behind hdrop).2]
      rfl
  · obtain ⟨hpos, hle, hoffset, -, hsc, -⟩ := sequence_between h hkind
    exact ⟨hpos, hle, hoffset, Or.inl hsc⟩

/-! ### Whole lines -/

theorem exists_lexes (pos : Nat) (seq : Sequence) (rest : List UInt8) : ∃ tokens, Lexes pos seq rest tokens := by
  induction hn : rest.length using Nat.strongRecOn generalizing pos seq rest with
  | ind n ih =>
    by_cases hne : rest = []
    · exact ⟨[], hne ▸ .done⟩
    · generalize h : scanLoop pos rest (.between pos seq) = r
      obtain ⟨sc, _ | token⟩ := r
      · exact ⟨_, .stuck hne h⟩
      · obtain ⟨hpos, hle, -⟩ := token_between h
        obtain ⟨tokens, htokens⟩ := ih (n - token.length) (by omega) (pos + token.length) sc.seq
          (rest.drop token.length) (by rw [List.length_drop, hn])
        exact ⟨_, .token h htokens⟩

/-- A scanner between two tokens of a line, or at its end. -/
def Scanner.Stands (sc : Scanner) (pos : Nat) (seq : Sequence) (rest : List UInt8) : Prop :=
  sc = .between pos seq ∨ rest = [] ∧ ∃ e, sc = ⟨.ground, pos, false, e, seq, 0⟩

theorem Scanner.Stands.scan_nil {sc : Scanner} {pos : Nat} {seq : Sequence} {bytes : List UInt8}
    (h : sc.Stands pos seq []) (hrest : bytes.drop pos = []) :
    ∃ sc', scan sc bytes .final = (sc', none) := by
  have hlen : bytes.length ≤ pos := List.drop_eq_nil_iff.mp hrest
  rcases h with rfl | ⟨-, e, rfl⟩
  · exact ⟨_, by simp [scan, Scanner.between, hlen]; rfl⟩
  · exact ⟨_, by simp [scan, hlen]; rfl⟩

theorem Scanner.Stands.scan_stuck {sc sc' : Scanner} {pos : Nat} {seq : Sequence} {bytes rest : List UInt8}
    (h : sc.Stands pos seq rest) (hrest : bytes.drop pos = rest) (hne : rest ≠ [])
    (hloop : scanLoop pos rest (.between pos seq) = (sc', none)) :
    ∃ next, scan sc bytes .final = (next, some (emit sc'.seq .malformed pos rest.length 0)) ∧
      ∃ last, scan next bytes .final = (last, none) := by
  obtain rfl : sc = .between pos seq := h.resolve_right fun hr => hne hr.1
  have hlen : ¬ bytes.length ≤ pos := by
    intro hle
    rw [List.drop_eq_nil_of_le hle] at hrest
    exact hne hrest.symm
  subst hrest
  have hscan := @scan_none (.between pos seq) sc' bytes .final rfl hlen hloop
  have hstart : (Scanner.between pos seq).tokenStart = pos := rfl
  simp only [hstart, if_true] at hscan
  rw [List.length_drop]
  refine ⟨_, hscan, { abandon { sc' with bufferDone := true } with bufferDone := false, pos := 0 }, ?_⟩
  simp [scan, abandon]

theorem Scanner.Stands.scan_token {sc sc' : Scanner} {pos : Nat} {seq : Sequence} {bytes rest : List UInt8}
    {token : Token} (h : sc.Stands pos seq rest) (hrest : bytes.drop pos = rest)
    (hloop : scanLoop pos rest (.between pos seq) = (sc', some token)) :
    scan sc bytes .final = (sc', some token) ∧ sc'.Stands (pos + token.length) sc'.seq (rest.drop token.length) := by
  obtain ⟨hpos, hle, -, hstands⟩ := token_between hloop
  have hne : rest ≠ [] := by
    rintro rfl
    cases hloop
  obtain rfl : sc = .between pos seq := h.resolve_right fun hr => hne hr.1
  have hlen : ¬ bytes.length ≤ pos := by
    intro hle
    rw [List.drop_eq_nil_of_le hle] at hrest
    exact hne hrest.symm
  subst hrest
  exact ⟨scan_some .final rfl hlen hloop, hstands⟩

/-- Draining a line yields its tokens. -/
theorem drain_lexes {pos fuel : Nat} {seq : Sequence} {rest bytes : List UInt8} {tokens : List Token} {sc : Scanner}
    (h : Lexes pos seq rest tokens) (hsc : sc.Stands pos seq rest) (hrest : bytes.drop pos = rest)
    (hf : rest.length + 2 ≤ fuel) : ∃ last, drain fuel sc bytes .final = some (tokens, last) := by
  induction h generalizing sc fuel with
  | done =>
    obtain ⟨fuel, rfl⟩ : ∃ n, fuel = n + 1 := ⟨fuel - 1, by omega⟩
    obtain ⟨last, hscan⟩ := hsc.scan_nil hrest
    exact ⟨last, by rw [drain, hscan]⟩
  | stuck hne hloop =>
    obtain ⟨fuel, rfl⟩ : ∃ n, fuel = n + 2 := ⟨fuel - 2, by omega⟩
    obtain ⟨next, hscan, last, hlast⟩ := hsc.scan_stuck hrest hne hloop
    exact ⟨last, by simp [drain, hscan, hlast]⟩
  | token hloop hmore ih =>
    obtain ⟨fuel, rfl⟩ : ∃ n, fuel = n + 1 := ⟨fuel - 1, by omega⟩
    obtain ⟨hpos, hle, -⟩ := token_between hloop
    obtain ⟨hscan, hstands⟩ := hsc.scan_token hrest hloop
    rename_i rest _ token _
    have hlen : (rest.drop token.length).length + 2 ≤ fuel := by
      rw [List.length_drop]
      omega
    obtain ⟨last, hdrain⟩ := ih hstands (by rw [← hrest, List.drop_drop]) hlen
    exact ⟨last, by simp [drain, hscan, hdrain]⟩

/-- Every token of a line has bytes. -/
theorem Lexes.length_pos {pos : Nat} {seq : Sequence} {rest : List UInt8} {tokens : List Token}
    (h : Lexes pos seq rest tokens) : ∀ token ∈ tokens, 0 < token.length := by
  induction h with
  | done => simp
  | stuck hne _ => simpa [emit] using List.length_pos_iff.mpr hne
  | token hloop _ ih => exact List.forall_mem_cons.mpr ⟨(token_between hloop).1, ih⟩

/-! ## Pieces -/

inductive Piece where
  | cluster (bytes : List UInt8)
  | sequence (token : Token)
  deriving DecidableEq, Repr

namespace Piece

def size : Piece → Nat
  | .cluster bytes => bytes.length
  | .sequence token => token.length

/-- Sequences occupy no cells. -/
def cells (ambiguous : Ambiguous) : Piece → Nat
  | .cluster bytes => clusterCells ambiguous bytes
  | .sequence _ => 0

/-- A malformed sequence. -/
def broken : Piece → Bool
  | .cluster _ => false
  | .sequence token => token.kind = .malformed

def fold (style : Style) : Piece → Style
  | .cluster _ => style
  | .sequence token => style.fold token

end Piece

/-- The pieces of one token at the front of some bytes. -/
def Token.pieces (token : Token) (rest : List UInt8) : List Piece :=
  if token.kind = .text then (clusters (rest.take token.length)).map .cluster else [.sequence token]

/-- The pieces of tokens one after the other. -/
def pieces : List Token → List UInt8 → List Piece
  | [], _ => []
  | token :: tokens, rest => token.pieces rest ++ pieces tokens (rest.drop token.length)

theorem size_clusters (cs : List (List UInt8)) : total Piece.size (cs.map .cluster) = total List.length cs := by
  simp [total, Function.comp_def, Piece.size]

theorem total_length (cs : List (List UInt8)) : total List.length cs = cs.flatten.length := by
  rw [total, List.length_flatten]

theorem size_pieces {token : Token} {rest : List UInt8} (h : token.length ≤ rest.length) :
    total Piece.size (token.pieces rest) = token.length := by
  unfold Token.pieces
  split
  · rw [size_clusters, total_length, flatten_clusters, List.length_take, Nat.min_eq_left h]
  · simp [Piece.size]

/-- A text run leaves the style alone, and the clusters of it are as wide as the run. -/
theorem fold_clusters (style : Style) (cs : List (List UInt8)) :
    (cs.map Piece.cluster).foldl Piece.fold style = style := by
  induction cs with
  | nil => rfl
  | cons c cs ih => exact ih

theorem fold_text (style : Style) {token : Token} (h : token.kind = .text) : style.fold token = style := by
  simp [Style.fold, Style.apply, Style.applyOsc, h]

/-- The pieces of a line change the style as its tokens do. -/
theorem fold_pieces (tokens : List Token) (rest : List UInt8) (style : Style) :
    (pieces tokens rest).foldl Piece.fold style = tokens.foldl Style.fold style := by
  induction tokens generalizing rest style with
  | nil => rfl
  | cons token tokens ih =>
    rw [pieces, List.foldl_append, ih, List.foldl_cons, Token.pieces]
    split
    · rename_i htext
      rw [fold_clusters, fold_text style htext]
    · rfl

/-! ## Cutting a line -/

/-- The last of a list of pieces is no malformed sequence. -/
def Whole (ps : List Piece) : Prop := ∀ p ∈ ps.getLast?, p.broken = false

theorem whole_cons {p : Piece} {ps : List Piece} (h : Whole (p :: ps)) : Whole ps := by
  intro q hq
  apply h
  cases ps with
  | nil => cases hq
  | cons p' ps => simpa using hq

theorem Whole.of_append {ps qs : List Piece} (h : Whole (ps ++ qs)) : Whole qs := by
  induction ps with
  | nil => exact h
  | cons p ps ih => exact ih (whole_cons h)

/-- What may stand behind a cut: nothing, or an escape sequence. -/
def Follows (more : List UInt8) : Prop := more = [] ∨ more.head? = some kEsc

theorem Follows.ends {more : List UInt8} (h : Follows more) (e : Nat) : Ends e more := by
  rcases h with rfl | h
  · exact Or.inl rfl
  · obtain ⟨rest, rfl⟩ := List.head?_eq_some_iff.mp h
    exact ends_escape e rest

theorem pieces_text {token : Token} (tokens : List Token) (rest : List UInt8) (h : token.kind = .text) :
    pieces (token :: tokens) rest =
      (clusters (rest.take token.length)).map .cluster ++ pieces tokens (rest.drop token.length) := by
  rw [pieces, Token.pieces, if_pos h]

theorem pieces_sequence {token : Token} (tokens : List Token) (rest : List UInt8) (h : token.kind ≠ .text) :
    pieces (token :: tokens) rest = .sequence token :: pieces tokens (rest.drop token.length) := by
  rw [pieces, Token.pieces, if_neg h]
  rfl

/-- A line cut behind a whole piece: the tokens in front of the cut, for whatever is scanned behind it. -/
def CutsAt (pos : Nat) (seq : Sequence) (rest : List UInt8) (ps : List Piece) (more : List UInt8) : Prop :=
  ∃ front next, pieces front (rest.take (total Piece.size ps)) = ps ∧
    ∀ back, Lexes (pos + total Piece.size ps) next more back →
      Lexes pos seq (rest.take (total Piece.size ps) ++ more) (front ++ back)

theorem cutsAt_nil (pos : Nat) (seq : Sequence) (rest more : List UInt8) : CutsAt pos seq rest [] more :=
  ⟨[], seq, rfl, fun back hback => by simpa using hback⟩

/-- Some clusters of a run are no longer than the run. -/
theorem total_clusters_le (run : List UInt8) (n : Nat) :
    total List.length ((clusters run).take n) ≤ run.length := by
  have hall : total List.length (clusters run) = run.length := by
    rw [total_length, flatten_clusters]
  have hmono := total_take_mono (w := List.length) (clusters run) (Nat.le_max_left n (clusters run).length)
  rwa [List.take_of_length_le (Nat.le_max_right n (clusters run).length), hall] at hmono

/-- A cut inside a text run. -/
theorem cutsAt_text {pos : Nat} {seq : Sequence} {rest : List UInt8} {sc : Scanner} {token : Token}
    (h : scanLoop pos rest (.between pos seq) = (sc, some token)) (hkind : token.kind = .text) (n : Nat)
    {more : List UInt8} (hmore : Follows more) :
    CutsAt pos seq rest (((clusters (rest.take token.length)).take n).map .cluster) more := by
  obtain ⟨htoken, -, -, hcut⟩ := text_between h hkind
  obtain ⟨-, hle, -⟩ := token_between h
  have hrun : token.length = (textRun 0 rest).1 := by
    rw [htoken]
    rfl
  have hm : total List.length ((clusters (rest.take token.length)).take n) ≤ token.length := by
    have hlen := total_clusters_le (rest.take token.length) n
    rwa [List.length_take, Nat.min_eq_left hle] at hlen
  have hpieces := clusters_take (rest.take token.length) n
  rw [List.take_take, Nat.min_eq_left hm] at hpieces
  by_cases hnil : (clusters (rest.take token.length)).take n = []
  · rw [hnil]
    exact cutsAt_nil pos seq rest more
  have hpos : 0 < total List.length ((clusters (rest.take token.length)).take n) := by
    obtain ⟨c, cs, hcs⟩ := List.exists_cons_of_ne_nil hnil
    have hc : c ∈ clusters (rest.take token.length) := List.mem_of_mem_take (i := n) (by simp [hcs])
    have hne := List.length_pos_iff.mpr (cluster_ne_nil _ c hc)
    rw [hcs, total_cons]
    omega
  rw [← hrun] at hcut
  generalize hcs : (clusters (rest.take token.length)).take n = cs at hm hpieces hpos
  have hstep := hcut (total List.length cs) more hpos hm (hmore.ends _)
  refine ⟨[emitSimple .text pos (total List.length cs) 0], seq, ?_, ?_⟩
  · rw [size_clusters, pieces_text [] _ rfl]
    simp only [emitSimple, emit, List.take_take, Nat.min_self, hpieces, pieces, List.append_nil]
  · intro back hback
    rw [size_clusters] at hback ⊢
    apply Lexes.token hstep
    have hdrop : (rest.take (total List.length cs) ++ more).drop (total List.length cs) = more := by
      have hlen : (rest.take (total List.length cs)).length = total List.length cs := by
        rw [List.length_take]
        omega
      rw [List.drop_append_of_le_length (Nat.le_of_eq hlen.symm), List.drop_of_length_le (Nat.le_of_eq hlen),
        List.nil_append]
    simp only [emitSimple, emit, hdrop]
    exact hback

/-- A line cut behind a whole piece: the tokens in front of the cut, for whatever is scanned behind it. -/
theorem Lexes.cut {pos : Nat} {seq : Sequence} {rest : List UInt8} {tokens : List Token}
    (h : Lexes pos seq rest tokens) (n : Nat) (hwhole : Whole ((pieces tokens rest).take n)) {more : List UInt8}
    (hmore : Follows more) : CutsAt pos seq rest ((pieces tokens rest).take n) more := by
  induction h generalizing n with
  | done =>
    simpa [pieces] using cutsAt_nil _ _ _ _
  | stuck hne hloop =>
    rename_i pos seq rest sc
    cases n with
    | zero => exact cutsAt_nil pos seq rest more
    | succ n =>
      exfalso
      have hbroken := hwhole (.sequence (emit sc.seq .malformed pos rest.length 0)) (by simp [pieces, Token.pieces, emit])
      simp [Piece.broken, emit] at hbroken
  | token hloop hrest ih =>
    rename_i pos seq rest sc token tokens
    obtain ⟨hpos, hle, -⟩ := token_between hloop
    by_cases hkind : token.kind = .text
    · rw [pieces_text tokens rest hkind] at hwhole ⊢
      by_cases hn : n ≤ (clusters (rest.take token.length)).length
      · rw [List.take_append_of_le_length (by simpa using hn), ← List.map_take]
        exact cutsAt_text hloop hkind n hmore
      · rw [List.take_append, List.take_of_length_le (by simpa using Nat.le_of_not_le hn)] at hwhole ⊢
        obtain ⟨htoken, -, hsc, hcut⟩ := text_between hloop hkind
        have hrun : token.length = (textRun 0 rest).1 := by
          rw [htoken]
          rfl
        have hseq : sc.seq = seq := by rw [hsc]
        rw [← hrun] at hcut htoken
        rw [hseq] at ih
        obtain ⟨front, next, hfront, hback⟩ := ih _ hwhole.of_append
        have hsize : total Piece.size ((clusters (rest.take token.length)).map .cluster) = token.length := by
          rw [size_clusters, total_length, flatten_clusters, List.length_take, Nat.min_eq_left hle]
        refine ⟨token :: front, next, ?_, ?_⟩
        · rw [total_append, hsize, pieces_text _ _ hkind, List.take_take, Nat.min_eq_left (Nat.le_add_right _ _),
            List.drop_take, Nat.add_sub_cancel_left, hfront]
        · intro back hlex
          rw [total_append, hsize] at hlex ⊢
          rw [← Nat.add_assoc] at hlex
          rw [List.take_add, List.append_assoc, List.cons_append]
          have hends := @ends_behind 0 rest (total Piece.size ((pieces tokens (rest.drop token.length)).take
            (n - ((clusters (rest.take token.length)).map Piece.cluster).length))) more hmore.ends
          rw [← hrun] at hends
          have hstep := hcut token.length _ hpos (Nat.le_refl _) hends
          rw [← htoken] at hstep
          apply Lexes.token hstep
          rw [List.drop_append_of_le_length (by rw [List.length_take]; omega), List.drop_take, Nat.sub_self,
            List.take_zero, List.nil_append]
          exact hback back hlex
    · rw [pieces_sequence tokens rest hkind] at hwhole ⊢
      cases n with
      | zero => exact cutsAt_nil pos seq rest more
      | succ n =>
        rw [List.take_succ_cons] at hwhole ⊢
        obtain ⟨-, -, -, -, -, hmoves⟩ := sequence_between hloop hkind
        obtain ⟨front, next, hfront, hback⟩ := ih n (whole_cons hwhole)
        refine ⟨token :: front, next, ?_, ?_⟩
        · rw [pieces_sequence _ _ hkind, total_cons, Piece.size, List.drop_take, Nat.add_sub_cancel_left, hfront]
        · intro back hlex
          rw [total_cons, Piece.size] at hlex ⊢
          rw [← Nat.add_assoc] at hlex
          rw [List.take_add, List.append_assoc, List.cons_append]
          apply Lexes.token (hmoves _)
          rw [List.drop_append_of_le_length (by rw [List.length_take]; omega), List.drop_take, Nat.sub_self,
            List.take_zero, List.nil_append]
          exact hback back hlex

end SupraHarness.Ansi
