import SupraHarness.Ansi.Truncate

/-!
# What a truncated line renders

The bytes a caller writes are the line up to the cut and the trailer. A malformed sequence does not
move the cut, but a cut behind it keeps it: the bytes have one exactly when a place for a cut behind
it still fits.
-/
namespace SupraHarness.Ansi

open Width Fitting

/-- A malformed sequence ends at `e`. -/
def BrokenAt : List Piece → Nat → Prop
  | [], _ => False
  | p :: ps, e => (p.broken = true ∧ e = p.size) ∨ ∃ e', BrokenAt ps e' ∧ e = p.size + e'

theorem brokenAt_append {ps qs : List Piece} {e : Nat} :
    BrokenAt (ps ++ qs) e ↔ BrokenAt ps e ∨ ∃ e', BrokenAt qs e' ∧ e = total Piece.size ps + e' := by
  induction ps generalizing e with
  | nil => simp [BrokenAt]
  | cons p ps ih =>
    rw [List.cons_append, BrokenAt, BrokenAt, total_cons]
    constructor
    · rintro (h | ⟨e', h, rfl⟩)
      · exact .inl (.inl h)
      · rcases ih.mp h with hps | ⟨k, hqs, rfl⟩
        · exact .inl (.inr ⟨_, hps, rfl⟩)
        · exact .inr ⟨k, hqs, (Nat.add_assoc _ _ _).symm⟩
    · rintro ((h | ⟨e', h, rfl⟩) | ⟨e', h, rfl⟩)
      · exact .inl h
      · exact .inr ⟨e', ih.mpr (.inl h), rfl⟩
      · exact .inr ⟨_, ih.mpr (.inr ⟨e', h, rfl⟩), Nat.add_assoc _ _ _⟩

theorem exists_brokenAt (ps : List Piece) : (∃ e, BrokenAt ps e) ↔ ∃ p ∈ ps, p.broken = true := by
  induction ps with
  | nil => simp [BrokenAt]
  | cons p ps ih =>
    simp only [List.mem_cons, exists_eq_or_imp, ← ih, BrokenAt]
    constructor
    · rintro ⟨e, ⟨h, rfl⟩ | ⟨e', h, rfl⟩⟩
      · exact .inl h
      · exact .inr ⟨e', h⟩
    · rintro (h | ⟨e', h⟩)
      · exact ⟨_, .inl ⟨h, rfl⟩⟩
      · exact ⟨_, .inr ⟨e', h, rfl⟩⟩

/-- Every piece has bytes. -/
def Solid (ps : List Piece) : Prop := ∀ p ∈ ps, 0 < p.size

theorem BrokenAt.pos {ps : List Piece} {e : Nat} (hs : Solid ps) (h : BrokenAt ps e) : 0 < e := by
  cases ps with
  | nil => exact h.elim
  | cons p ps =>
    have hp := hs p List.mem_cons_self
    rcases h with ⟨-, rfl⟩ | ⟨e', -, rfl⟩
    · exact hp
    · exact Nat.add_pos_left hp e'

/-- A malformed sequence is not the last of pieces that end in a whole one. -/
theorem BrokenAt.lt {ps : List Piece} {e : Nat} (hs : Solid ps) (hw : Whole ps) (h : BrokenAt ps e) :
    e < total Piece.size ps := by
  induction ps generalizing e with
  | nil => exact h.elim
  | cons p ps ih =>
    rw [total_cons]
    rcases h with ⟨hbroken, rfl⟩ | ⟨e', h, rfl⟩
    · cases ps with
      | nil =>
        have hwhole := hw p rfl
        rw [hbroken] at hwhole
        cases hwhole
      | cons q ps =>
        have hq := hs q (List.mem_cons_of_mem _ List.mem_cons_self)
        rw [total_cons]
        omega
    · have hlt := ih (fun q hq => hs q (List.mem_cons_of_mem _ hq)) (whole_cons hw) h
      omega

/-! ## Tokens -/

variable {bytes rest : List UInt8} {tokens : List Token} {pos : Nat} {seq : Sequence} {maxCells : Nat}
  {ambiguous : Ambiguous}

theorem broken_token (token : Token) (rest : List UInt8) (e : Nat) :
    BrokenAt (token.pieces rest) e ↔ token.kind = .malformed ∧ e = token.length := by
  unfold Token.pieces
  split_ifs with hkind
  · constructor
    · intro h
      obtain ⟨p, hp, hbroken⟩ := (exists_brokenAt _).mp ⟨e, h⟩
      obtain ⟨c, -, rfl⟩ := List.mem_map.mp hp
      cases hbroken
    · rintro ⟨hmalformed, -⟩
      rw [hkind] at hmalformed
      cases hmalformed
  · simp [BrokenAt, Piece.broken, Piece.size]

/-- The malformed tokens of a line are the malformed sequences among its pieces. -/
theorem Lexes.broken (h : Lexes pos seq rest tokens) (e : Nat) :
    (∃ token ∈ tokens, token.kind = .malformed ∧ token.offset + token.length = e) ↔
      ∃ e', BrokenAt (pieces tokens rest) e' ∧ e = pos + e' := by
  induction h with
  | done => simp [pieces, BrokenAt]
  | stuck hne hloop =>
    rename_i pos seq rest sc
    have hkind : (emit sc.seq .malformed pos rest.length 0).kind ≠ .text := by rintro ⟨⟩
    rw [pieces_sequence [] rest hkind]
    simp [pieces, BrokenAt, Piece.broken, Piece.size, emit, eq_comm]
  | token hloop hmore ih =>
    rename_i pos seq rest sc token tokens
    obtain ⟨hpos, hle, hoffset, -⟩ := token_between hloop
    simp only [List.mem_cons, exists_eq_or_imp]
    rw [ih, hoffset, pieces]
    constructor
    · rintro (⟨hkind, rfl⟩ | ⟨e', h, rfl⟩)
      · exact ⟨_, brokenAt_append.mpr (.inl ((broken_token token rest _).mpr ⟨hkind, rfl⟩)), rfl⟩
      · refine ⟨_, brokenAt_append.mpr (.inr ⟨e', h, rfl⟩), ?_⟩
        rw [size_pieces hle, Nat.add_assoc]
    · rintro ⟨r, hr, rfl⟩
      rcases brokenAt_append.mp hr with h | ⟨e', h, rfl⟩
      · obtain ⟨hkind, rfl⟩ := (broken_token token rest _).mp h
        exact .inl ⟨hkind, rfl⟩
      · refine .inr ⟨e', h, ?_⟩
        rw [size_pieces hle, Nat.add_assoc]

theorem solid_token {token : Token} (hpos : 0 < token.length) (rest : List UInt8) : Solid (token.pieces rest) := by
  intro p hp
  unfold Token.pieces at hp
  split_ifs at hp with hkind
  · obtain ⟨c, hc, rfl⟩ := List.mem_map.mp hp
    exact List.length_pos_iff.mpr (cluster_ne_nil _ c hc)
  · obtain rfl := List.mem_singleton.mp hp
    exact hpos

theorem solid_pieces (tokens : List Token) (rest : List UInt8) (h : ∀ token ∈ tokens, 0 < token.length) :
    Solid (pieces tokens rest) := by
  induction tokens generalizing rest with
  | nil => exact nofun
  | cons token tokens ih =>
    rw [List.forall_mem_cons] at h
    rw [pieces]
    exact List.forall_mem_append.2 ⟨solid_token h.1 rest, ih _ h.2⟩

theorem exists_broken_pieces (tokens : List Token) (rest : List UInt8) :
    (∃ p ∈ pieces tokens rest, p.broken = true) ↔ ∃ token ∈ tokens, token.kind = .malformed := by
  induction tokens generalizing rest with
  | nil => simp [pieces]
  | cons token tokens ih =>
    have htoken : (∃ p ∈ token.pieces rest, p.broken = true) ↔ token.kind = .malformed := by
      rw [← exists_brokenAt]
      simp [broken_token]
    simp only [pieces, List.mem_append, or_and_right, exists_or, htoken, ih, List.mem_cons, exists_eq_left]

/-! ## The rendered line -/

/-- No place for a cut behind a malformed sequence of the line fits. -/
def CutsEarly (bytes : List UInt8) (tokens : List Token) (maxCells : Nat) (ambiguous : Ambiguous) : Prop :=
  ∀ token ∈ tokens, token.kind = .malformed → ∀ p, CutPoint bytes tokens p → token.offset + token.length < p →
    ∃ cells, measure (bytes.take p) ambiguous = some cells ∧ maxCells < cells

theorem cutsEarly_iff (h : Lexes 0 Sequence.zero bytes tokens) :
    CutsEarly bytes tokens maxCells ambiguous ↔
      ¬ ∃ p ∈ planned maxCells ambiguous (pieces tokens bytes), p.broken = true := by
  have hsolid := solid_pieces tokens bytes h.length_pos
  have hbroken := h.broken
  simp only [Nat.zero_add, exists_eq_right'] at hbroken
  obtain ⟨qs, hsplit⟩ := @planned_front maxCells ambiguous (pieces tokens bytes)
  have hps : Solid (planned maxCells ambiguous (pieces tokens bytes)) :=
    fun p hp => hsolid p ((planned_front _).subset hp)
  rw [← exists_brokenAt]
  constructor
  · rintro hearly ⟨e, he⟩
    have hlt := he.lt hps (whole_rdropWhile _)
    have hin : BrokenAt (pieces tokens bytes) e := by
      rw [← hsplit]
      exact brokenAt_append.mpr (.inl he)
    obtain ⟨token, htoken, hkind, rfl⟩ := (hbroken e).mpr hin
    obtain ⟨cells, hcells, hwide⟩ := hearly token htoken hkind _ (cutPoint_planned h) hlt
    rw [measure_planned h, Option.some_inj] at hcells
    have hfits := total_fitting_le (w := Piece.cells ambiguous) maxCells (pieces tokens bytes)
    omega
  · intro hnone token htoken hkind p hp hlt
    apply planned_longest h hp
    by_contra hle
    have hin := (hbroken _).mp ⟨token, htoken, hkind, rfl⟩
    rw [← hsplit] at hin
    rcases brokenAt_append.mp hin with he | ⟨e', he', heq⟩
    · exact hnone ⟨_, he⟩
    · omega

/-- The rendered bytes scan without a malformed token exactly when no place for a cut behind a
malformed sequence of the line fits into the cells. -/
theorem rendered_malformed_iff (bytes : List UInt8) (maxCells : Nat) (ambiguous : Ambiguous)
    (initial : Option Style) :
    ∃ tokens t rendered, forEachToken bytes = some tokens ∧
      planTruncateFrom bytes maxCells ambiguous initial = some t ∧
      forEachToken (bytes.take t.prefixLen ++ t.trailer) = some rendered ∧
      ((∀ token ∈ rendered, token.kind ≠ .malformed) ↔ CutsEarly bytes tokens maxCells ambiguous) := by
  obtain ⟨tokens, hlex⟩ := exists_lexes 0 Sequence.zero bytes
  obtain ⟨front, back, hpieces, hlexes, -, hback⟩ := @lexes_planned bytes tokens maxCells ambiguous hlex
    ((fitting (Piece.cells ambiguous) maxCells (pieces tokens bytes)).foldl Piece.fold (initial.getD .default))
  refine ⟨tokens, _, front ++ back, forEachToken_eq hlex, planTruncateFrom_eq hlex initial,
    forEachToken_eq hlexes, ?_⟩
  rw [cutsEarly_iff hlex, ← hpieces, exists_broken_pieces, List.forall_mem_append]
  constructor
  · rintro ⟨hfront, -⟩ ⟨token, htoken, hkind⟩
    exact hfront token htoken hkind
  · exact fun hnone => ⟨fun token htoken hkind => hnone ⟨token, htoken, hkind⟩, hback⟩

/-- A cancelled sequence in front of a letter. -/
theorem rendered_keeps_malformed :
    ∃ t rendered, planTruncateFrom [0x1B, 0x18, 0x61] 5 .narrow none = some t ∧
      forEachToken ([0x1B, 0x18, 0x61].take t.prefixLen ++ t.trailer) = some rendered ∧
      ∃ token ∈ rendered, token.kind = .malformed := by
  have hruns : planTruncateFrom [0x1B, 0x18, 0x61] 5 .narrow none = some ⟨3, 1, [], false, .default⟩ ∧
      forEachToken [0x1B, 0x18, 0x61] =
        some [emit Sequence.zero .malformed 0 2 0x18, emitSimple .text 2 1 0] := by decide +kernel
  exact ⟨_, _, hruns.1, hruns.2, _, List.mem_cons_self, rfl⟩

end SupraHarness.Ansi
