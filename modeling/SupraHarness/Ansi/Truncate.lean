import SupraHarness.Ansi.Pieces

/-!
# Measurement and truncation

The planner walks the tokens of a line, the text runs cluster by cluster, and keeps what fits.
Sequences occupy no cells; malformed ones do not move the cut. A line is thus a list of pieces,
clusters and sequences, and the plan keeps the longest beginning of it that fits, without the
malformed sequences at its end. A line that is cut behind a whole piece has the pieces in front
of the cut, whatever escape sequence follows.
-/
namespace SupraHarness.Ansi

open Width Fitting

/-! ## The functions -/

/-- The tokens that `forEachToken` walks. -/
def forEachToken (bytes : List UInt8) : Option (List Token) :=
  (drain (bytes.length + 2) Scanner.init bytes .final).map fun r =>
    r.1.takeWhile fun token => token.length ≠ 0 ∨ token.kind = .malformed

def textOf (bytes : List UInt8) (token : Token) : List UInt8 := (bytes.drop token.offset).take token.length

/-- `supra_ansi_measure` -/
def measure (bytes : List UInt8) (ambiguous : Ambiguous) : Option Nat :=
  if bytes = [] then some 0
  else (forEachToken bytes).map fun tokens => tokens.foldl (fun cells token =>
    if token.kind = .text then cells + wcswidth (textOf bytes token) ambiguous else cells) 0

/-- `supra_ansi_style_emit_reset`: closes the hyperlink before the SGR reset. -/
def Style.emitReset (style : Style) : List UInt8 :=
  (if style.hyperlinkOpen then [0x1B, 0x5D, 0x38, 0x3B, 0x3B, 0x1B, 0x5C] else []) ++
    if style.attrs ≠ 0 ∨ style.underline ≠ .none ∨ style.fg ≠ .default ∨ style.bg ≠ .default ∨
        style.underlineColor ≠ .default then [0x1B, 0x5B, 0x30, 0x6D]
    else []

structure Truncation where
  prefixLen : Nat
  cells : Nat
  trailer : List UInt8
  truncated : Bool
  styleAtCut : Style
  deriving DecidableEq, Repr

/-- The variables of the planner's loop. -/
structure Plan where
  style : Style
  cells : Nat
  prefixLen : Nat
  cut : Bool
  deriving DecidableEq, Repr

/-- The walk over a text run, from the cluster at `offset` on. -/
def Plan.addRun (maxCells : Nat) (ambiguous : Ambiguous) : Nat → Nat → List UInt8 → Plan → Plan
  | 0, _, _, plan => plan
  | fuel + 1, offset, run, plan =>
    if run = [] then plan
    else
      let r := graphemeWidth run ambiguous
      if r.2 = 0 then plan
      else if maxCells < plan.cells + cellsOf r.1 then { plan with cut := true }
      else addRun maxCells ambiguous fuel (offset + r.2) (run.drop r.2)
        { plan with cells := plan.cells + cellsOf r.1, prefixLen := offset + r.2 }

/-- A token that is no text: its style change, and the cut behind it unless it is malformed. -/
def Plan.addSequence (plan : Plan) (token : Token) : Plan :=
  { plan with
    style := (plan.style.apply token).applyOsc token
    prefixLen := if token.kind ≠ .malformed ∧ token.kind ≠ .part then token.offset + token.length
      else plan.prefixLen }

/-- The planner's loop, for at most as many calls of the scanner as there is fuel. -/
def planLoop (bytes : List UInt8) (maxCells : Nat) (ambiguous : Ambiguous) : Nat → Scanner → Plan → Option Plan
  | 0, _, _ => none
  | fuel + 1, sc, plan =>
    if plan.cut then some plan
    else match scan sc bytes .final with
      | (_, none) => some plan
      | (sc, some token) =>
        if token.length = 0 ∧ token.kind ≠ .malformed then some plan
        else if token.kind = .text then
          planLoop bytes maxCells ambiguous fuel sc
            (plan.addRun maxCells ambiguous token.length token.offset (textOf bytes token))
        else planLoop bytes maxCells ambiguous fuel sc (plan.addSequence token)

/-- `supra_ansi_plan_truncate_from` -/
def planTruncateFrom (bytes : List UInt8) (maxCells : Nat) (ambiguous : Ambiguous) (initial : Option Style) :
    Option Truncation :=
  let style := initial.getD .default
  if bytes = [] then some ⟨0, 0, style.emitReset, false, style⟩
  else (planLoop bytes maxCells ambiguous (bytes.length + 2) Scanner.init ⟨style, 0, 0, false⟩).map fun plan =>
    ⟨plan.prefixLen, plan.cells, plan.style.emitReset, plan.cut, plan.style⟩

/-! ## Tokens and pieces -/

variable {bytes rest : List UInt8} {tokens : List Token} {pos : Nat} {seq : Sequence} {maxCells : Nat}
  {ambiguous : Ambiguous}

theorem forEachToken_eq (h : Lexes 0 Sequence.zero bytes tokens) : forEachToken bytes = some tokens := by
  obtain ⟨last, hdrain⟩ := drain_lexes h (Or.inl rfl : Scanner.init.Stands 0 Sequence.zero bytes) (List.drop_zero)
    (Nat.le_refl _)
  have hall : tokens.takeWhile (fun token => token.length ≠ 0 ∨ token.kind = .malformed) = tokens := by
    rw [List.takeWhile_eq_self_iff]
    intro token htoken
    have hpos := h.length_pos token htoken
    simp only [decide_eq_true_eq]
    omega
  rw [forEachToken, hdrain, Option.map_some, hall]

theorem Lexes.textOf (h : Lexes pos seq rest tokens) (hrest : bytes.drop pos = rest) {token : Token}
    {more : List Token} (hcons : tokens = token :: more) : textOf bytes token = rest.take token.length := by
  cases h with
  | done => cases hcons
  | stuck hne hloop =>
    cases hcons
    rw [Ansi.textOf]
    simp only [emit, hrest]
  | token hloop hmore =>
    cases hcons
    rw [Ansi.textOf, (token_between hloop).2.2.1, hrest]

theorem cells_clusters (cs : List (List UInt8)) :
    total (Piece.cells ambiguous) (cs.map .cluster) = total (clusterCells ambiguous) cs := by
  simp [total, Function.comp_def, Piece.cells]

theorem foldl_cells (h : Lexes pos seq rest tokens) (hrest : bytes.drop pos = rest) (cells : Nat) :
    tokens.foldl (fun cells token =>
      if token.kind = .text then cells + wcswidth (textOf bytes token) ambiguous else cells) cells =
      cells + total (Piece.cells ambiguous) (pieces tokens rest) := by
  induction h generalizing cells with
  | done => rfl
  | stuck hne hloop => simp [emit, pieces, Token.pieces, Piece.cells]
  | token hloop hmore ih =>
    rename_i pos seq rest sc token tokens
    have htext := (Lexes.token hloop hmore).textOf hrest rfl
    rw [List.foldl_cons, ih (by rw [← hrest, List.drop_drop])]
    by_cases hkind : token.kind = .text
    · rw [if_pos hkind, pieces_text _ _ hkind, total_append, cells_clusters, htext, wcswidth_eq, Nat.add_assoc]
    · rw [if_neg hkind, pieces_sequence _ _ hkind, total_cons, Piece.cells, Nat.zero_add]

/-- A line measures what its pieces do. -/
theorem measure_eq (h : Lexes 0 Sequence.zero bytes tokens) :
    measure bytes ambiguous = some (total (Piece.cells ambiguous) (pieces tokens bytes)) := by
  rw [measure]
  split
  · rename_i hnil
    subst hnil
    cases h with
    | done => rfl
    | stuck hne _ => exact absurd rfl hne
    | token hloop _ => cases hloop
  · rw [forEachToken_eq h, Option.map_some, foldl_cells h List.drop_zero, Nat.zero_add]

/-- A beginning of whole pieces measures what they do. -/
theorem measure_take (h : Lexes 0 Sequence.zero bytes tokens) {n : Nat} (hwhole : Whole ((pieces tokens bytes).take n)) :
    measure (bytes.take (total Piece.size ((pieces tokens bytes).take n))) ambiguous =
      some (total (Piece.cells ambiguous) ((pieces tokens bytes).take n)) := by
  obtain ⟨front, next, hfront, hback⟩ := h.cut n hwhole (Or.inl rfl)
  have hlex := hback [] .done
  rw [List.append_nil, List.append_nil] at hlex
  rw [measure_eq hlex, hfront]

/-! ## Where a line may be cut -/

/-- The start, the end of a token that is not malformed, and a cluster boundary inside a text run. -/
def CutPoint (bytes : List UInt8) (tokens : List Token) (p : Nat) : Prop :=
  p = 0 ∨ ∃ token ∈ tokens, (token.kind ≠ .malformed ∧ p = token.offset + token.length) ∨
    (token.kind = .text ∧ ∃ b ∈ boundaries (textOf bytes token), p = token.offset + b)

theorem whole_text (cs : List (List UInt8)) : Whole (cs.map .cluster) := by
  intro p hp
  obtain ⟨c, -, rfl⟩ := List.mem_map.mp (List.mem_of_getLast? hp)
  rfl

/-- A beginning that is not empty, and its last piece. -/
def Cuts (ps : List Piece) (p : Nat) : Prop :=
  ∃ n, 0 < n ∧ n ≤ ps.length ∧ Whole (ps.take n) ∧ p = total Piece.size (ps.take n)

theorem cuts_append {ps qs : List Piece} {p : Nat} :
    Cuts (ps ++ qs) p ↔ Cuts ps p ∨ ∃ q, Cuts qs q ∧ p = total Piece.size ps + q := by
  constructor
  · rintro ⟨n, hpos, hle, hwhole, rfl⟩
    by_cases hn : n ≤ ps.length
    · left
      rw [List.take_append_of_le_length hn] at hwhole ⊢
      exact ⟨n, hpos, hn, hwhole, rfl⟩
    · right
      rw [List.take_append, List.take_of_length_le (Nat.le_of_not_le hn)] at hwhole ⊢
      rw [List.length_append] at hle
      exact ⟨_, ⟨n - ps.length, by omega, by omega, hwhole.of_append, rfl⟩, total_append _ _⟩
  · rintro (⟨n, hpos, hle, hwhole, rfl⟩ | ⟨q, ⟨n, hpos, hle, hwhole, rfl⟩, rfl⟩)
    · refine ⟨n, hpos, by rw [List.length_append]; omega, ?_, ?_⟩
      · rwa [List.take_append_of_le_length hle]
      · rw [List.take_append_of_le_length hle]
    · have htake : (ps ++ qs).take (ps.length + n) = ps ++ qs.take n := by
        rw [List.take_append, List.take_of_length_le (Nat.le_add_right _ _), Nat.add_sub_cancel_left]
      refine ⟨ps.length + n, by omega, by rw [List.length_append]; omega, ?_, ?_⟩
      · rw [htake]
        intro p hp
        apply hwhole
        have hne : qs.take n ≠ [] := by
          apply List.ne_nil_of_length_pos
          rw [List.length_take]
          omega
        rwa [List.getLast?_append_of_ne_nil _ hne] at hp
      · rw [htake, total_append]

theorem cuts_clusters {run : List UInt8} (hne : run ≠ []) (q : Nat) :
    Cuts ((clusters run).map .cluster) q ↔ q = run.length ∨ q ∈ boundaries run := by
  have hall : total List.length (clusters run) = run.length := by
    rw [total_length, flatten_clusters]
  have hsome : 0 < (clusters run).length := by
    rw [clusters_cons hne]
    exact Nat.succ_pos _
  have htake : ∀ n, total Piece.size (((clusters run).map Piece.cluster).take n) =
      total List.length ((clusters run).take n) := by
    intro n
    rw [← List.map_take, size_clusters]
  rw [mem_boundaries_iff]
  constructor
  · rintro ⟨n, hpos, hle, -, rfl⟩
    rw [List.length_map] at hle
    rw [htake]
    rcases Nat.lt_or_eq_of_le hle with hlt | rfl
    · exact Or.inr ⟨n, hpos, hlt, rfl⟩
    · left
      rw [List.take_length, hall]
  · rintro (rfl | ⟨n, hpos, hlt, rfl⟩)
    · refine ⟨(clusters run).length, hsome, by simp, ?_, ?_⟩
      · rw [← List.map_take]
        exact whole_text _
      · rw [htake, List.take_length, hall]
    · refine ⟨n, hpos, by simpa using Nat.le_of_lt hlt, ?_, (htake n).symm⟩
      rw [← List.map_take]
      exact whole_text _

theorem cuts_sequence (token : Token) (q : Nat) :
    Cuts [.sequence token] q ↔ token.kind ≠ .malformed ∧ q = token.length := by
  constructor
  · rintro ⟨n, hpos, hle, hwhole, rfl⟩
    obtain rfl : n = 1 := by
      rw [List.length_singleton] at hle
      omega
    have hbroken := hwhole (.sequence token) rfl
    exact ⟨by simpa [Piece.broken] using hbroken, by simp [Piece.size]⟩
  · rintro ⟨hkind, rfl⟩
    refine ⟨1, Nat.one_pos, Nat.le_refl _, ?_, by simp [Piece.size]⟩
    intro p hp
    obtain rfl : p = .sequence token := by simpa using hp.symm
    simpa [Piece.broken] using hkind

/-- A token's own places for a cut. -/
def Token.Cut (token : Token) (run : List UInt8) (q : Nat) : Prop :=
  (token.kind ≠ .malformed ∧ q = token.length) ∨ (token.kind = .text ∧ q ∈ boundaries run)

theorem cuts_token {token : Token} (hpos : 0 < token.length) (hle : token.length ≤ rest.length) (q : Nat) :
    Cuts (token.pieces rest) q ↔ token.Cut (rest.take token.length) q := by
  unfold Token.pieces Token.Cut
  by_cases hkind : token.kind = .text
  · have hne : rest.take token.length ≠ [] := by
      apply List.ne_nil_of_length_pos
      rw [List.length_take]
      omega
    rw [if_pos hkind, cuts_clusters hne, List.length_take, Nat.min_eq_left hle]
    simp [hkind]
  · rw [if_neg hkind, cuts_sequence]
    simp [hkind]

/-- The places where a line may be cut are the ends of its pieces. -/
theorem Lexes.cuts (h : Lexes pos seq rest tokens) (hrest : bytes.drop pos = rest) (p : Nat) :
    (∃ token ∈ tokens, ∃ q, token.Cut (Ansi.textOf bytes token) q ∧ p = token.offset + q) ↔
      ∃ q, Cuts (pieces tokens rest) q ∧ p = pos + q := by
  induction h with
  | done => simp [pieces, Cuts]
  | stuck hne hloop =>
    rename_i pos seq rest sc
    have hkind : (emit sc.seq .malformed pos rest.length 0).kind ≠ .text := by rintro ⟨⟩
    rw [pieces_sequence [] rest hkind]
    simp [pieces, cuts_sequence, Token.Cut, emit]
  | token hloop hmore ih =>
    rename_i pos seq rest sc token tokens
    obtain ⟨hpos, hle, hoffset, -⟩ := token_between hloop
    have htext := (Lexes.token hloop hmore).textOf hrest rfl
    have ih := ih (by rw [← hrest, List.drop_drop])
    simp only [List.mem_cons, exists_eq_or_imp]
    rw [ih, htext, hoffset, pieces]
    constructor
    · rintro (⟨q, hq, rfl⟩ | ⟨q, hq, rfl⟩)
      · exact ⟨q, cuts_append.mpr (Or.inl ((cuts_token hpos hle q).mpr hq)), rfl⟩
      · refine ⟨_, cuts_append.mpr (Or.inr ⟨q, hq, rfl⟩), ?_⟩
        rw [size_pieces hle, Nat.add_assoc]
    · rintro ⟨r, hr, rfl⟩
      rcases cuts_append.mp hr with hq | ⟨q, hq, rfl⟩
      · exact Or.inl ⟨r, (cuts_token hpos hle r).mp hq, rfl⟩
      · refine Or.inr ⟨q, hq, ?_⟩
        rw [size_pieces hle, Nat.add_assoc]

theorem cutPoint_iff (h : Lexes 0 Sequence.zero bytes tokens) (p : Nat) :
    CutPoint bytes tokens p ↔ p = 0 ∨ Cuts (pieces tokens bytes) p := by
  have hcuts := h.cuts List.drop_zero p
  simp only [Nat.zero_add, exists_eq_right'] at hcuts
  rw [CutPoint, ← hcuts]
  apply or_congr Iff.rfl
  apply exists_congr
  intro token
  apply and_congr Iff.rfl
  simp only [Token.Cut]
  constructor
  · rintro (⟨hkind, rfl⟩ | ⟨hkind, b, hb, rfl⟩)
    · exact ⟨_, Or.inl ⟨hkind, rfl⟩, rfl⟩
    · exact ⟨b, Or.inr ⟨hkind, hb⟩, rfl⟩
  · rintro ⟨q, ⟨hkind, rfl⟩ | ⟨hkind, hq⟩, rfl⟩
    · exact Or.inl ⟨hkind, rfl⟩
    · exact Or.inr ⟨hkind, q, hq, rfl⟩

/-! ## The planner, piece by piece -/

/-- The walk over the pieces of a line. -/
def Plan.walk (maxCells : Nat) (ambiguous : Ambiguous) : Nat → List Piece → Plan → Plan
  | _, [], plan => plan
  | pos, p :: ps, plan =>
    if maxCells < plan.cells + p.cells ambiguous then { plan with cut := true }
    else walk maxCells ambiguous (pos + p.size) ps
      { plan with
        style := p.fold plan.style
        cells := plan.cells + p.cells ambiguous
        prefixLen := if p.broken then plan.prefixLen else pos + p.size }

@[simp] theorem walk_nil (pos : Nat) (plan : Plan) : plan.walk maxCells ambiguous pos [] = plan := rfl

theorem walk_cons (pos : Nat) (p : Piece) (ps : List Piece) (plan : Plan) :
    plan.walk maxCells ambiguous pos (p :: ps) =
      if maxCells < plan.cells + p.cells ambiguous then { plan with cut := true }
      else Plan.walk maxCells ambiguous (pos + p.size) ps
        { plan with
          style := p.fold plan.style
          cells := plan.cells + p.cells ambiguous
          prefixLen := if p.broken then plan.prefixLen else pos + p.size } := rfl

/-- A walk that has not been cut goes on. -/
theorem walk_append (pos : Nat) (ps qs : List Piece) (plan : Plan) (hcut : plan.cut = false) :
    plan.walk maxCells ambiguous pos (ps ++ qs) =
      if (plan.walk maxCells ambiguous pos ps).cut then plan.walk maxCells ambiguous pos ps
      else (plan.walk maxCells ambiguous pos ps).walk maxCells ambiguous (pos + total Piece.size ps) qs := by
  induction ps generalizing pos plan with
  | nil => simp [hcut]
  | cons p ps ih =>
    rw [List.cons_append, walk_cons, walk_cons, total_cons, ← Nat.add_assoc]
    split
    · rfl
    · exact ih _ _ hcut

theorem walk_cells_le (pos : Nat) (ps : List Piece) (plan : Plan) (h : plan.cells ≤ maxCells) :
    (plan.walk maxCells ambiguous pos ps).cells ≤ maxCells := by
  induction ps generalizing pos plan with
  | nil => exact h
  | cons p ps ih =>
    rw [walk_cons]
    split
    · exact h
    · rename_i hfits
      exact ih _ _ (Nat.le_of_not_lt hfits)

theorem addRun_eq (fuel offset : Nat) (run : List UInt8) (plan : Plan) (hf : run.length ≤ fuel) :
    plan.addRun maxCells ambiguous fuel offset run =
      plan.walk maxCells ambiguous offset ((clusters run).map .cluster) := by
  induction fuel generalizing offset run plan with
  | zero =>
    obtain rfl := List.length_eq_zero_iff.mp (Nat.le_zero.mp hf)
    rfl
  | succ fuel ih =>
    rw [Plan.addRun]
    by_cases hne : run = []
    · rw [if_pos hne, hne]
      rfl
    · have hpos := clusterLength_pos hne
      have hwidth : graphemeWidth run ambiguous =
          (clusterWidth (run.take (clusterLength run)) ambiguous, clusterLength run) := by
        rw [graphemeWidth, if_neg hne]
      have hrest : (run.drop (clusterLength run)).length ≤ fuel := by
        rw [List.length_drop]
        omega
      rw [if_neg hne, hwidth, clusters_cons hne, List.map_cons, walk_cons]
      simp only [Nat.pos_iff_ne_zero.mp hpos, if_false, Piece.cells, clusterCells, Piece.broken, Piece.fold,
        Piece.size, List.length_take, Nat.min_eq_left (clusterLength_le run), Bool.false_eq_true]
      split
      · rfl
      · exact ih _ _ _ hrest

theorem walk_sequence {token : Token} {plan : Plan} (hoffset : token.offset = pos) (hkind : token.kind ≠ .part)
    (hcells : plan.cells ≤ maxCells) (ps : List Piece) :
    plan.walk maxCells ambiguous pos (.sequence token :: ps) =
      (plan.addSequence token).walk maxCells ambiguous (pos + token.length) ps := by
  rw [walk_cons, Piece.cells, Nat.add_zero, if_neg (Nat.not_lt.mpr hcells)]
  congr 1
  simp only [Plan.addSequence, Piece.fold, Style.fold, Piece.broken, Piece.size, hoffset]
  by_cases hbroken : token.kind = .malformed
  · simp [hbroken]
  · simp [hbroken, hkind]

/-- The planner walks over the pieces of the line. -/
theorem planLoop_eq {fuel : Nat} {sc : Scanner} {plan : Plan} (h : Lexes pos seq rest tokens)
    (hsc : sc.Stands pos seq rest) (hrest : bytes.drop pos = rest) (hf : rest.length + 2 ≤ fuel)
    (hcut : plan.cut = false) (hcells : plan.cells ≤ maxCells) :
    planLoop bytes maxCells ambiguous fuel sc plan =
      some (plan.walk maxCells ambiguous pos (pieces tokens rest)) := by
  induction h generalizing sc fuel plan with
  | done =>
    obtain ⟨fuel, rfl⟩ : ∃ n, fuel = n + 1 := ⟨fuel - 1, by omega⟩
    obtain ⟨last, hscan⟩ := hsc.scan_nil hrest
    simp [planLoop, hcut, hscan, pieces, walk_nil]
  | stuck hne hloop =>
    rename_i pos seq rest sc'
    obtain ⟨fuel, rfl⟩ : ∃ n, fuel = n + 2 := ⟨fuel - 2, by omega⟩
    obtain ⟨next, hscan, last, hlast⟩ := hsc.scan_stuck hrest hne hloop
    have hkind : (emit sc'.seq .malformed pos rest.length 0).kind ≠ .text := by rintro ⟨⟩
    have hmalformed : ¬ ((emit sc'.seq .malformed pos rest.length 0).length = 0 ∧
        (emit sc'.seq .malformed pos rest.length 0).kind ≠ .malformed) := fun hm => hm.2 rfl
    have hstays : (plan.addSequence (emit sc'.seq .malformed pos rest.length 0)).cut = false := hcut
    have hoffset : (emit sc'.seq .malformed pos rest.length 0).offset = pos := rfl
    have hpart : (emit sc'.seq .malformed pos rest.length 0).kind ≠ .part := by rintro ⟨⟩
    rw [pieces_sequence [] rest hkind, walk_sequence hoffset hpart hcells, planLoop, hcut, hscan]
    simp only [Bool.false_eq_true, if_false, if_neg hmalformed, if_neg hkind, pieces, walk_cons, walk_nil]
    rw [planLoop, hstays, hlast]
    rfl
  | token hloop hmore ih =>
    rename_i pos seq rest sc' token tokens
    obtain ⟨fuel, rfl⟩ : ∃ n, fuel = n + 1 := ⟨fuel - 1, by omega⟩
    obtain ⟨hpos, hle, hoffset, -⟩ := token_between hloop
    obtain ⟨hscan, hstands⟩ := hsc.scan_token hrest hloop
    have htext := (Lexes.token hloop hmore).textOf hrest rfl
    have hlen : (rest.drop token.length).length + 2 ≤ fuel := by
      rw [List.length_drop]
      omega
    have hdrop : bytes.drop (pos + token.length) = rest.drop token.length := by
      rw [← hrest, List.drop_drop]
    have hsome : ¬ (token.length = 0 ∧ token.kind ≠ .malformed) := by omega
    rw [planLoop, hcut, hscan]
    simp only [Bool.false_eq_true, if_false, if_neg hsome]
    by_cases hkind : token.kind = .text
    · rw [if_pos hkind, htext, addRun_eq _ _ _ _ (by rw [List.length_take]; exact Nat.min_le_left _ _), hoffset,
        pieces_text _ _ hkind, walk_append _ _ _ _ hcut, size_clusters, total_length, flatten_clusters,
        List.length_take, Nat.min_eq_left hle]
      cases hplan : (plan.walk maxCells ambiguous pos ((clusters (rest.take token.length)).map .cluster)).cut with
      | true =>
        obtain ⟨fuel, rfl⟩ : ∃ n, fuel = n + 1 := ⟨fuel - 1, by omega⟩
        rw [planLoop, hplan]
        simp
      | false =>
        rw [ih hstands hdrop hlen hplan (walk_cells_le _ _ _ hcells)]
        simp
    · obtain ⟨-, -, -, hpart, -⟩ := sequence_between hloop hkind
      rw [if_neg hkind, pieces_sequence _ _ hkind, walk_sequence hoffset hpart hcells]
      exact ih hstands hdrop hlen hcut hcells

/-! ## What the walk keeps -/

theorem rdropWhile_cons {α : Type} (q : α → Bool) (a : α) (l : List α) :
    (a :: l).rdropWhile q = if l.rdropWhile q = [] then [a].rdropWhile q else a :: l.rdropWhile q := by
  simp only [List.rdropWhile, List.reverse_cons, List.dropWhile_append, List.reverse_eq_nil_iff, List.isEmpty_iff,
    List.reverse_nil, List.nil_append]
  split
  · rfl
  · simp

/-- The walk keeps the longest beginning that fits, but for the malformed sequences at its end. -/
theorem walk_eq (pos : Nat) (ps : List Piece) (plan : Plan) (hcut : plan.cut = false) (hcells : plan.cells ≤ maxCells) :
    plan.walk maxCells ambiguous pos ps =
      let kept := fitting (Piece.cells ambiguous) (maxCells - plan.cells) ps
      { style := kept.foldl Piece.fold plan.style
        cells := plan.cells + total (Piece.cells ambiguous) kept
        prefixLen := if kept.rdropWhile Piece.broken = [] then plan.prefixLen
          else pos + total Piece.size (kept.rdropWhile Piece.broken)
        cut := kept.length < ps.length } := by
  induction ps generalizing pos plan with
  | nil =>
    obtain ⟨style, cells, prefixLen, cut⟩ := plan
    simpa [fitting] using hcut
  | cons p ps ih =>
    rw [walk_cons, fitting_cons]
    by_cases hfits : maxCells < plan.cells + p.cells ambiguous
    · have hno : ¬ p.cells ambiguous ≤ maxCells - plan.cells := by omega
      rw [if_pos hfits, if_neg hno]
      simp
    · have hyes : p.cells ambiguous ≤ maxCells - plan.cells := by omega
      rw [if_neg hfits, if_pos hyes]
      have hrest := ih (pos + p.size)
        { plan with
          style := p.fold plan.style
          cells := plan.cells + p.cells ambiguous
          prefixLen := if p.broken then plan.prefixLen else pos + p.size } hcut (Nat.le_of_not_lt hfits)
      rw [hrest]
      simp only [List.foldl_cons, total_cons, List.length_cons, Nat.add_lt_add_iff_right, Nat.sub_sub,
        Nat.add_assoc, Plan.mk.injEq, true_and, and_true]
      rw [rdropWhile_cons]
      by_cases hnil : (fitting (Piece.cells ambiguous) (maxCells - (plan.cells + p.cells ambiguous)) ps).rdropWhile
          Piece.broken = []
      · rw [if_pos hnil, if_pos hnil, List.rdropWhile_singleton]
        by_cases hbroken : p.broken = true
        · simp [hbroken]
        · simp [hbroken]
      · rw [if_neg hnil, if_neg hnil, if_neg (List.cons_ne_nil _ _), total_cons]

/-- Malformed sequences occupy no cells. -/
theorem cells_rdropWhile (ps : List Piece) :
    total (Piece.cells ambiguous) (ps.rdropWhile Piece.broken) = total (Piece.cells ambiguous) ps := by
  have hnone : total (Piece.cells ambiguous) (ps.rtakeWhile Piece.broken) = 0 := by
    apply List.sum_eq_zero
    intro c hc
    obtain ⟨p, hp, rfl⟩ := List.mem_map.mp hc
    have hbroken := List.mem_rtakeWhile_imp hp
    cases p with
    | cluster bytes => cases hbroken
    | sequence token => rfl
  conv_rhs => rw [← List.rdropWhile_append_rtakeWhile (p := Piece.broken) (l := ps), total_append, hnone]
  rfl

/-- Nor do they change the style. -/
theorem fold_rdropWhile (ps : List Piece) (style : Style) :
    (ps.rdropWhile Piece.broken).foldl Piece.fold style = ps.foldl Piece.fold style := by
  have hnone : ∀ (qs : List Piece) (style : Style), (∀ p ∈ qs, p.broken = true) → qs.foldl Piece.fold style = style := by
    intro qs style hqs
    induction qs with
    | nil => rfl
    | cons p qs ih =>
      obtain ⟨hbroken, hrest⟩ := List.forall_mem_cons.mp hqs
      cases p with
      | cluster bytes => cases hbroken
      | sequence token =>
        have hkind : token.kind = .malformed := of_decide_eq_true hbroken
        have hfold : style.fold token = style := by simp [Style.fold, Style.apply, Style.applyOsc, hkind]
        rw [List.foldl_cons, Piece.fold, hfold, ih hrest]
  conv_rhs => rw [← List.rdropWhile_append_rtakeWhile (p := Piece.broken) (l := ps), List.foldl_append]
  exact (hnone _ _ fun p hp => List.mem_rtakeWhile_imp hp).symm

theorem whole_rdropWhile (ps : List Piece) : Whole (ps.rdropWhile Piece.broken) := by
  intro p hp
  have hne : ps.rdropWhile Piece.broken ≠ [] := by
    intro hnil
    rw [hnil] at hp
    cases hp
  have hlast := List.rdropWhile_last_not Piece.broken ps hne
  rw [List.getLast?_eq_some_getLast hne] at hp
  obtain rfl := Option.some.inj hp
  simpa using hlast

/-- No longer beginning of a list ends in a piece that is whole. -/
theorem length_le_rdropWhile {ps : List Piece} {n : Nat} (hle : n ≤ ps.length)
    (hwhole : Whole (ps.take n)) : n ≤ (ps.rdropWhile Piece.broken).length := by
  by_contra hlong
  have hsplit := List.rdropWhile_append_rtakeWhile (p := Piece.broken) (l := ps)
  generalize ps.rdropWhile Piece.broken = kept at hsplit hlong
  rw [← hsplit, List.length_append] at hle
  rw [← hsplit, List.take_append, List.take_of_length_le (Nat.le_of_not_le hlong)] at hwhole
  have hbehind := hwhole.of_append
  have hne : (ps.rtakeWhile Piece.broken).take (n - kept.length) ≠ [] := by
    apply List.ne_nil_of_length_pos
    rw [List.length_take]
    omega
  have hlast := hbehind _ (List.getLast?_eq_some_getLast hne)
  rw [List.mem_rtakeWhile_imp (List.mem_of_mem_take (List.getLast_mem hne))] at hlast
  cases hlast

/-- A place for a cut that lies behind what is kept lies behind what fits. -/
theorem Cuts.behind {ps kept : List Piece} {p : Nat} (h : Cuts ps p) (hkept : kept <+: ps)
    (hp : total Piece.size (kept.rdropWhile Piece.broken) < p) :
    ∃ n, kept.length < n ∧ n ≤ ps.length ∧ Whole (ps.take n) ∧ p = total Piece.size (ps.take n) := by
  obtain ⟨n, -, hle, hwhole, rfl⟩ := h
  refine ⟨n, ?_, hle, hwhole, rfl⟩
  by_contra hshort
  have hshort := Nat.le_of_not_lt hshort
  have htake : ps.take n = kept.take n := by
    rw [List.prefix_iff_eq_take.mp hkept, List.take_take, Nat.min_eq_left hshort]
  rw [htake] at hwhole hp
  have hlen := length_le_rdropWhile hshort hwhole
  have hmono := total_take_mono (w := Piece.size) kept hlen
  rw [← List.prefix_iff_eq_take.mp (List.rdropWhile_prefix Piece.broken kept)] at hmono
  omega

/-! ## The trailer -/

theorem follows_emitReset (style : Style) : Follows style.emitReset := by
  unfold Style.emitReset
  split
  · exact Or.inr rfl
  · split
    · exact Or.inr rfl
    · exact Or.inl rfl

theorem length_emitReset_le (style : Style) : style.emitReset.length ≤ 24 := by
  unfold Style.emitReset
  split <;> split <;> simp

/-- The SGR reset is one token, which resets the style. -/
theorem scanLoop_reset (pos : Nat) (seq : Sequence) :
    ∃ sc token, scanLoop pos [0x1B, 0x5B, 0x30, 0x6D] (.between pos seq) = (sc, some token) ∧ token.length = 4 ∧
      token.kind = .csi ∧ ∀ style : Style, style.fold token = style.reset := by
  refine ⟨_, emit (endParam (accumulateDigit (beginParam (clearSequence seq)) 0x30)) .csi pos (pos + 4 - pos) 0x6D,
    rfl, Nat.add_sub_cancel_left pos 4, rfl, ?_⟩
  intro style
  rfl

/-- The hyperlink close is one token, which closes the link. -/
theorem scanLoop_close (pos : Nat) (seq : Sequence) (more : List UInt8) :
    ∃ sc token, scanLoop pos ([0x1B, 0x5D, 0x38, 0x3B, 0x3B, 0x1B, 0x5C] ++ more) (.between pos seq) = (sc, some token) ∧
      token.length = 7 ∧ token.kind = .osc ∧
        ∀ style : Style, style.fold token = { style with hyperlinkOpen := false } := by
  refine ⟨_, emit (appendPayload (appendPayload (appendPayload (clearSequence seq) 0x38) 0x3B) 0x3B) .osc pos
    (pos + 7 - pos) kC1St, rfl, Nat.add_sub_cancel_left pos 7, rfl, ?_⟩
  intro style
  rfl

/-- Without a hyperlink, the reset returns every style to the default. -/
theorem lexes_unlinked (pos : Nat) (seq : Sequence) (style : Style) (h : style.hyperlinkOpen = false) :
    ∃ tokens, Lexes pos seq style.emitReset tokens ∧ tokens.foldl Style.fold style = .default ∧
      ∀ token ∈ tokens, token.kind ≠ .malformed := by
  obtain ⟨attrs, fg, bg, underlineColor, underline, hyperlinkOpen⟩ := style
  obtain rfl : hyperlinkOpen = false := h
  unfold Style.emitReset
  rw [if_neg Bool.false_ne_true, List.nil_append]
  split
  · obtain ⟨sc, token, hloop, hlength, hkind, hfold⟩ := scanLoop_reset pos seq
    refine ⟨[token], .token hloop (hlength ▸ .done), hfold _, List.forall_mem_singleton.2 ?_⟩
    rw [hkind]
    decide
  · rename_i hplain
    simp only [not_or, not_not, ne_eq] at hplain
    obtain ⟨rfl, rfl, rfl, rfl, rfl⟩ := hplain
    exact ⟨[], .done, rfl, nofun⟩

/-- The trailer returns every style to the default. -/
theorem lexes_emitReset (pos : Nat) (seq : Sequence) (style : Style) :
    ∃ tokens, Lexes pos seq style.emitReset tokens ∧ tokens.foldl Style.fold style = .default ∧
      ∀ token ∈ tokens, token.kind ≠ .malformed := by
  cases hlink : style.hyperlinkOpen with
  | false => exact lexes_unlinked pos seq style hlink
  | true =>
    have hsplit : style.emitReset = [0x1B, 0x5D, 0x38, 0x3B, 0x3B, 0x1B, 0x5C] ++
        ({ style with hyperlinkOpen := false } : Style).emitReset := by
      simp [Style.emitReset, hlink]
    obtain ⟨sc, token, hloop, hlength, hkind, hfold⟩ :=
      scanLoop_close pos seq ({ style with hyperlinkOpen := false } : Style).emitReset
    obtain ⟨tokens, hlex, hdefault, hkinds⟩ := lexes_unlinked (pos + 7) sc.seq { style with hyperlinkOpen := false } rfl
    refine ⟨token :: tokens, ?_, ?_, List.forall_mem_cons.2 ⟨?_, hkinds⟩⟩
    · rw [hsplit]
      apply Lexes.token hloop
      rw [hlength]
      exact hlex
    · rw [List.foldl_cons, hfold, hdefault]
    · rw [hkind]
      decide

/-! ## The plan -/

/-- The contract of a truncation, where `tokens` are those of the line: the plan cuts the line behind the
last token that is not malformed, or behind a cluster of a text run, as far behind as the cells allow. -/
structure Truncates (bytes : List UInt8) (maxCells : Nat) (ambiguous : Ambiguous) (initial : Style)
    (tokens : List Token) (t : Truncation) : Prop where
  fits : t.cells ≤ maxCells
  measured : measure (bytes.take t.prefixLen) ambiguous = some t.cells
  cutPoint : CutPoint bytes tokens t.prefixLen
  longest : ∀ p, CutPoint bytes tokens p → t.prefixLen < p →
    ∃ cells, measure (bytes.take p) ambiguous = some cells ∧ maxCells < cells
  whole : t.truncated = false → ∀ token ∈ tokens, t.prefixLen < token.offset + token.length → token.kind = .malformed
  closed : ∃ sc, foldBytes Scanner.init initial (bytes.take t.prefixLen ++ t.trailer) .final = some (sc, .default)

theorem planTruncateFrom_eq (h : Lexes 0 Sequence.zero bytes tokens) (initial : Option Style) :
    planTruncateFrom bytes maxCells ambiguous initial =
      let kept := fitting (Piece.cells ambiguous) maxCells (pieces tokens bytes)
      let style := kept.foldl Piece.fold (initial.getD .default)
      some ⟨total Piece.size (kept.rdropWhile Piece.broken), total (Piece.cells ambiguous) kept, style.emitReset,
        kept.length < (pieces tokens bytes).length, style⟩ := by
  rw [planTruncateFrom]
  split
  · rename_i hnil
    subst hnil
    cases h with
    | done => simp [pieces, fitting]
    | stuck hne _ => exact absurd rfl hne
    | token hloop _ => cases hloop
  · have hloop := @planLoop_eq bytes bytes tokens 0 Sequence.zero maxCells ambiguous (bytes.length + 2) Scanner.init
      ⟨initial.getD .default, 0, 0, false⟩ h (Or.inl rfl) List.drop_zero (Nat.le_refl _) rfl (Nat.zero_le _)
    rw [hloop, walk_eq _ _ _ rfl (Nat.zero_le _)]
    simp only [Option.map_some, Nat.sub_zero, Nat.zero_add]
    split
    · rename_i hnone
      rw [hnone]
      rfl
    · rfl

/-- The pieces in front of the cut. -/
def planned (maxCells : Nat) (ambiguous : Ambiguous) (ps : List Piece) : List Piece :=
  (fitting (Piece.cells ambiguous) maxCells ps).rdropWhile Piece.broken

theorem planned_front (ps : List Piece) : planned maxCells ambiguous ps <+: ps :=
  (List.rdropWhile_prefix _ _).trans ( fitting_prefix maxCells ps)

theorem planned_eq_take (ps : List Piece) :
    planned maxCells ambiguous ps = ps.take (planned maxCells ambiguous ps).length :=
  List.prefix_iff_eq_take.mp (planned_front ps)

theorem measure_planned (h : Lexes 0 Sequence.zero bytes tokens) :
    measure (bytes.take (total Piece.size (planned maxCells ambiguous (pieces tokens bytes)))) ambiguous =
      some (total (Piece.cells ambiguous) (fitting (Piece.cells ambiguous) maxCells (pieces tokens bytes))) := by
  have hmeasure := @measure_take bytes tokens ambiguous h (planned maxCells ambiguous (pieces tokens bytes)).length
  rw [← planned_eq_take] at hmeasure
  rw [hmeasure (whole_rdropWhile _), planned, cells_rdropWhile]

theorem cutPoint_planned (h : Lexes 0 Sequence.zero bytes tokens) :
    CutPoint bytes tokens (total Piece.size (planned maxCells ambiguous (pieces tokens bytes))) := by
  rw [cutPoint_iff h]
  by_cases hnil : planned maxCells ambiguous (pieces tokens bytes) = []
  · left
    rw [hnil]
    rfl
  · right
    refine ⟨_, List.length_pos_iff.mpr hnil, (planned_front _).length_le, ?_,
      congrArg (total Piece.size) (planned_eq_take _)⟩
    rw [← planned_eq_take]
    exact whole_rdropWhile _

/-- Every place behind the cut is too wide. -/
theorem planned_longest (h : Lexes 0 Sequence.zero bytes tokens) {p : Nat} (hp : CutPoint bytes tokens p)
    (hlt : total Piece.size (planned maxCells ambiguous (pieces tokens bytes)) < p) :
    ∃ cells, measure (bytes.take p) ambiguous = some cells ∧ maxCells < cells := by
  rcases (cutPoint_iff h p).mp hp with rfl | hp
  · exact absurd hlt (Nat.not_lt_zero _)
  · obtain ⟨n, hn, hle, hwhole, rfl⟩ := hp.behind ( fitting_prefix maxCells _) hlt
    exact ⟨_, measure_take h hwhole, lt_total_of_longer hn hle⟩

/-- The tokens of what a caller writes: those of the pieces in front of the cut, and the trailer's. -/
theorem lexes_planned (h : Lexes 0 Sequence.zero bytes tokens) (style : Style) :
    ∃ front back,
      pieces front (bytes.take (total Piece.size (planned maxCells ambiguous (pieces tokens bytes)))) =
        planned maxCells ambiguous (pieces tokens bytes) ∧
      Lexes 0 Sequence.zero
        (bytes.take (total Piece.size (planned maxCells ambiguous (pieces tokens bytes))) ++ style.emitReset)
        (front ++ back) ∧
      back.foldl Style.fold style = .default ∧ ∀ token ∈ back, token.kind ≠ .malformed := by
  have hcut := @Lexes.cut 0 Sequence.zero bytes tokens h (planned maxCells ambiguous (pieces tokens bytes)).length
  rw [← planned_eq_take] at hcut
  obtain ⟨front, next, hpieces, hback⟩ := hcut (whole_rdropWhile _) (follows_emitReset style)
  obtain ⟨back, hreset, hdefault, hkinds⟩ := lexes_emitReset _ next style
  exact ⟨front, back, hpieces, hback back hreset, hdefault, hkinds⟩

/-- For every line, width, locale and initial style. -/
theorem planTruncateFrom_truncates (bytes : List UInt8) (maxCells : Nat) (ambiguous : Ambiguous)
    (initial : Option Style) :
    ∃ tokens t, forEachToken bytes = some tokens ∧
      planTruncateFrom bytes maxCells ambiguous initial = some t ∧
      Truncates bytes maxCells ambiguous (initial.getD .default) tokens t := by
  obtain ⟨tokens, hlex⟩ := exists_lexes 0 Sequence.zero bytes
  refine ⟨tokens, _, forEachToken_eq hlex, planTruncateFrom_eq hlex initial, ?_⟩
  constructor
  · exact total_fitting_le maxCells (pieces tokens bytes)
  · exact measure_planned hlex
  · exact cutPoint_planned hlex
  · exact fun p hp hlt => planned_longest hlex hp hlt
  · intro huncut token htoken hlt
    by_contra hkind
    have hp : CutPoint bytes tokens (token.offset + token.length) := Or.inr ⟨token, htoken, Or.inl ⟨hkind, rfl⟩⟩
    rcases (cutPoint_iff hlex _).mp hp with hzero | hp
    · rw [hzero] at hlt
      exact absurd hlt (Nat.not_lt_zero _)
    · obtain ⟨n, hn, hle, -⟩ := hp.behind ( fitting_prefix maxCells _) hlt
      have hlen := of_decide_eq_false huncut
      omega
  · obtain ⟨front, back, hpieces, hlexes, hdefault, -⟩ := @lexes_planned bytes tokens maxCells ambiguous hlex
      ((fitting (Piece.cells ambiguous) maxCells (pieces tokens bytes)).foldl Piece.fold (initial.getD .default))
    obtain ⟨last, hdrain⟩ := drain_lexes hlexes (Or.inl rfl : Scanner.init.Stands 0 Sequence.zero _)
      List.drop_zero (Nat.le_refl _)
    have hstyle := fold_pieces front (bytes.take (total Piece.size (planned maxCells ambiguous (pieces tokens bytes))))
      (initial.getD .default)
    rw [hpieces, planned, fold_rdropWhile] at hstyle
    refine ⟨last, ?_⟩
    simp only [foldBytes]
    rw [planned] at hdrain
    rw [hdrain, Option.map_some, List.foldl_append, ← hstyle, hdefault]

/-- An unterminated sequence at the end is left out of a line that is reported as not truncated. -/
theorem planTruncateFrom_drops_malformed :
    ∃ t, planTruncateFrom [0x61, 0x1B] 5 .narrow none = some t ∧ t.truncated = false ∧ t.prefixLen ≠ 2 :=
  ⟨⟨1, 1, [], false, .default⟩, by decide +kernel, rfl, by decide⟩

end SupraHarness.Ansi