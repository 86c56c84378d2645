import Mathlib.Logic.Relation
import SupraHarness.Ansi.Params

/-!
# Progress and bounds of the scanner

Draining a buffer ends, and its tokens lie end to end over the bytes. The accumulators are only
written by the few functions `Edit` names; `slots` lists the array elements each of them writes,
with the size of the array. Whatever order they are called in, no element outside an array is
written, and no parameter exceeds `kParamMax`.
-/
namespace SupraHarness.Ansi

/-- The functions that write to the accumulators of a sequence. -/
inductive Edit where
  | clearSequence | beginParam | endParam
  | accumulateDigit (digit : UInt8)
  | beginSubparam
  | accumulateSubparamDigit (digit : UInt8)
  | appendPayload (byte : UInt8)
  | addIntermediate (byte : UInt8)
  | rememberFinal (byte : UInt8)
  deriving DecidableEq, Repr

def Edit.apply (seq : Sequence) : Edit → Sequence
  | .clearSequence => SupraHarness.Ansi.clearSequence seq
  | .beginParam => SupraHarness.Ansi.beginParam seq
  | .endParam => SupraHarness.Ansi.endParam seq
  | .accumulateDigit digit => SupraHarness.Ansi.accumulateDigit seq digit
  | .beginSubparam => SupraHarness.Ansi.beginSubparam seq
  | .accumulateSubparamDigit digit => SupraHarness.Ansi.accumulateSubparamDigit seq digit
  | .appendPayload byte => SupraHarness.Ansi.appendPayload seq byte
  | .addIntermediate byte => SupraHarness.Ansi.addIntermediate seq byte
  | .rememberFinal byte => SupraHarness.Ansi.rememberFinal seq byte

/-- The array elements a function writes, each an index and the size of its array. -/
def Edit.slots (seq : Sequence) : Edit → List (Nat × Nat)
  | .clearSequence => [(0, 2), (1, 2)] ++ (List.range maxParams).map fun i => (i, maxParams)
  | .beginParam => if seq.paramCount < maxParams then [(seq.paramCount, maxParams)] else []
  | .endParam => []
  | .accumulateDigit _ => if maxParams ≤ seq.paramCount then [] else [(seq.paramCount, maxParams)]
  | .beginSubparam =>
    if seq.paramCount < maxParams ∧ seq.subparamTotal < maxSubparams then
      [(seq.subparamTotal, maxSubparams), (seq.paramCount, maxParams)]
    else []
  | .accumulateSubparamDigit _ =>
    if seq.subparamTotal = 0 then [] else [(seq.subparamTotal - 1, maxSubparams)]
  | .appendPayload _ =>
    if seq.payload.length < maxPayload then [(seq.payload.length, maxPayload)] else []
  | .addIntermediate _ => if seq.intermediateCount < 2 then [(seq.intermediateCount, 2)] else []
  | .rememberFinal _ => [(1, 2)]

/-- What calls of these functions make of the accumulators. -/
def Edits : Sequence → Sequence → Prop :=
  Relation.ReflTransGen fun seq seq' => ∃ edit, seq' = Edit.apply seq edit

/-- The counts and the stored indices are within the arrays, and the values within their range. -/
structure Sequence.Bounded (seq : Sequence) : Prop where
  paramCount : seq.paramCount ≤ maxParams
  subparamTotal : seq.subparamTotal ≤ maxSubparams
  within : ∀ i, seq.start i + seq.count i ≤ seq.subparamTotal
  intermediateCount : seq.intermediateCount ≤ 2
  payload : seq.payload.length ≤ maxPayload
  param : ∀ i, seq.param i ≤ kParamMax
  sub : ∀ k, seq.sub k ≤ kParamMax

/-- The same of a token, over the elements its arrays have. -/
structure Token.Bounded (token : Token) : Prop where
  paramCount : token.paramCount ≤ maxParams
  within : ∀ i (h : i < maxParams),
    token.subparamIndex[i] + token.subparamCount[i] ≤ maxSubparams
  intermediateCount : token.intermediateCount ≤ 2
  payload : token.payload.length ≤ maxPayload
  param : ∀ i (h : i < maxParams), token.params[i] ≤ kParamMax
  sub : ∀ k (h : k < maxSubparams), token.subparams[k] ≤ kParamMax

/-- Tokens that lie end to end from one offset to another. -/
def Tiles : Nat → List Token → Nat → Prop
  | start, [], stop => start = stop
  | start, token :: tokens, stop => token.offset = start ∧ Tiles (start + token.length) tokens stop

/-- The states a scanner is in between two buffers. -/
inductive Scanner.Reachable : Scanner → Prop where
  | init : Scanner.init.Reachable
  | drained {sc sc' : Scanner} {fuel : Nat} {bytes : List UInt8} {eof : Eof} {tokens : List Token}
      (h : sc.Reachable) (hd : drain fuel sc bytes eof = some (tokens, sc')) : sc'.Reachable

def Outcome.seq : Outcome → Sequence
  | .advance _ seq | .report seq _ _ | .control seq _ => seq

/-! ## The arrays -/

variable {seq seq' seq'' : Sequence}

theorem Edits.refl (seq : Sequence) : Edits seq seq := Relation.ReflTransGen.refl

theorem Edits.trans (h : Edits seq seq') (h' : Edits seq' seq'') : Edits seq seq'' :=
  Relation.ReflTransGen.trans h h'

theorem Edits.edit (h : Edits seq seq') (edit : Edit) : Edits seq (Edit.apply seq' edit) :=
  h.tail ⟨edit, rfl⟩

theorem pushDigit_le {value : Int} (h : value ≤ kParamMax) (digit : UInt8) :
    pushDigit value digit ≤ kParamMax := by
  simp only [pushDigit]
  split_ifs <;> omega

/-- The value a digit is added to is the one kept, or 0 at the first digit. -/
theorem digit_value_le {kept : Int} (h : kept ≤ kParamMax) (hasDigits : Bool) (digit : UInt8) :
    pushDigit (if hasDigits then kept else 0) digit ≤ kParamMax := by
  apply pushDigit_le
  split_ifs
  · exact h
  · decide

@[simp] theorem getD_replicate {α : Type} (n i : Nat) (value : α) :
    ((Vector.replicate n value)[i]?).getD value = value := by
  by_cases h : i < n <;> simp [h]

theorem bounded_zero : Sequence.zero.Bounded := by
  constructor <;>
    simp [Sequence.zero, Sequence.start, Sequence.count, Sequence.param, Sequence.sub, kParamMax]

theorem bounded_clearSequence (h : seq.Bounded) : (clearSequence seq).Bounded := by
  constructor <;>
    simp [clearSequence, Sequence.start, Sequence.count, Sequence.param, kParamMax]
  exact h.sub

/-- A call of any of the functions keeps the accumulators within bounds. -/
theorem bounded_edit (h : seq.Bounded) (edit : Edit) : (Edit.apply seq edit).Bounded := by
  obtain ⟨hcount, htotal, hwithin, hinter, hpayload, hparam, hsub⟩ := h
  simp only [Sequence.start, Sequence.count, Sequence.param, Sequence.sub] at hwithin hparam hsub
  cases edit with
  | clearSequence => exact bounded_clearSequence ⟨hcount, htotal, hwithin, hinter, hpayload, hparam, hsub⟩
  | beginParam =>
    constructor <;>
      grind [Edit.apply, beginParam, Sequence.start, Sequence.count, Sequence.param, Sequence.sub,
        kParamOmitted, kParamMax]
  | endParam =>
    constructor <;>
      grind [Edit.apply, endParam, Sequence.start, Sequence.count, Sequence.param, Sequence.sub]
  | accumulateDigit digit =>
    have hdigit := digit_value_le (hparam seq.paramCount) seq.paramHasDigits digit
    constructor <;>
      grind [Edit.apply, accumulateDigit, Sequence.start, Sequence.count, Sequence.param, Sequence.sub]
  | beginSubparam =>
    constructor <;>
      grind [Edit.apply, beginSubparam, Sequence.start, Sequence.count, Sequence.param, Sequence.sub,
        kParamOmitted, kParamMax]
  | accumulateSubparamDigit digit =>
    have hdigit := digit_value_le (hsub (seq.subparamTotal - 1)) seq.paramHasDigits digit
    constructor <;>
      grind [Edit.apply, accumulateSubparamDigit, Sequence.start, Sequence.count, Sequence.param,
        Sequence.sub]
  | appendPayload byte =>
    constructor <;>
      grind [Edit.apply, appendPayload, Sequence.start, Sequence.count, Sequence.param, Sequence.sub]
  | addIntermediate byte =>
    constructor <;>
      grind [Edit.apply, addIntermediate, Sequence.start, Sequence.count, Sequence.param, Sequence.sub]
  | rememberFinal byte => exact ⟨hcount, htotal, hwithin, hinter, hpayload, hparam, hsub⟩

theorem bounded_edits (h : seq.Bounded) (he : Edits seq seq') : seq'.Bounded := by
  induction he with
  | refl => exact h
  | tail _ hstep ih =>
    obtain ⟨edit, rfl⟩ := hstep
    exact bounded_edit ih edit

/-- Every element a function writes is one of its array. -/
theorem slots_inside (h : seq.Bounded) (edit : Edit) :
    ∀ slot ∈ edit.slots seq, slot.1 < slot.2 := by
  have htotal := h.subparamTotal
  intro slot hslot
  cases edit <;> simp only [Edit.slots] at hslot
  all_goals grind

/-! ## One byte -/

/-- A branch of the `switch` does nothing to the accumulators but call the functions. -/
theorem dispatch_edits (state : State) (seq : Sequence) (byte : UInt8) :
    Edits seq (dispatch state seq byte).seq := by
  have h0 := Edits.refl seq
  have hclear := h0.edit .clearSequence
  have hdigit := h0.edit (.accumulateDigit byte)
  have hsubDigit := h0.edit (.accumulateSubparamDigit byte)
  have hinter := h0.edit (.addIntermediate byte)
  have hend := h0.edit .endParam
  have hpayload := h0.edit (.appendPayload byte)
  have hescape := (h0.edit (.appendPayload kEsc)).edit (.appendPayload byte)
  have hbegin := h0.edit .beginParam
  have hnext := hend.edit .beginParam
  have hsub := h0.edit .beginSubparam
  have hendInter := hend.edit (.addIntermediate byte)
  have hendFinal := hend.edit (.rememberFinal byte)
  have hfinal := h0.edit (.rememberFinal byte)
  have hintro := hclear.edit .beginParam
  have hcsi : Edits seq (onCsiParam seq byte).seq := by
    unfold onCsiParam
    split_ifs <;> assumption
  have hdcs : Edits seq (onDcsParam seq byte).seq := by
    unfold onDcsParam
    split_ifs <;> assumption
  unfold dispatch
  split_ifs with hcancel
  · exact h0
  cases state with
  | ground => unfold onGround; split_ifs <;> assumption
  | escape => unfold onEscape; split_ifs <;> assumption
  | escapeIntermediate => unfold onEscapeIntermediate; split_ifs <;> assumption
  | csiEntry => exact hcsi
  | csiParam => exact hcsi
  | csiIntermediate => unfold onCsiIntermediate; split_ifs <;> assumption
  | csiIgnore => unfold onCsiIgnore; split_ifs <;> assumption
  | oscString => unfold onOscString; split_ifs <;> assumption
  | oscEsc => unfold onOscEsc; split_ifs <;> assumption
  | dcsEntry => exact hdcs
  | dcsParam => exact hdcs
  | dcsIntermediate => unfold onDcsIntermediate; split_ifs <;> assumption
  | dcsPassthrough => unfold onDcsPassthrough; split_ifs <;> assumption
  | dcsEsc => unfold onDcsEsc; split_ifs <;> assumption
  | dcsIgnore => unfold onDcsIgnore; split_ifs <;> assumption
  | apcString => unfold onApcString; split_ifs <;> assumption
  | apcEsc => unfold onApcEsc; split_ifs <;> assumption

/-! ## One call -/

/-- A token shows the accumulators of some point of the scan. -/
theorem bounded_emit (h : seq.Bounded) (kind : TokenKind) (offset length : Nat) (finalByte : UInt8) :
    (emit seq kind offset length finalByte).Bounded := by
  obtain ⟨hcount, htotal, hwithin, hinter, hpayload, hparam, hsub⟩ := h
  constructor
  · exact hcount
  · intro i hi
    have h := Nat.le_trans (hwithin i) htotal
    simpa [Sequence.start, Sequence.count, hi, emit] using h
  · exact hinter
  · exact hpayload
  · intro i hi
    simpa [Sequence.param, hi, emit] using hparam i
  · intro k hk
    simpa [Sequence.sub, hk, emit] using hsub k

/-- What the scanning loop reports lies between the start of its token and the new cursor. -/
def LoopTiles (tokenStart : Nat) (sc : Scanner) : Scanner × Option Token → Prop
  | (sc', none) => Edits sc.seq sc'.seq
  | (sc', some token) =>
    Edits sc.seq sc'.seq ∧ token.Bounded ∧ token.offset = tokenStart ∧
      token.offset + token.length = sc'.pos

theorem scanLoop_tiles (tokenStart : Nat) (rest : List UInt8) (sc : Scanner)
    (hb : sc.seq.Bounded) (hts : tokenStart ≤ sc.pos) (hg : sc.state = .ground → sc.pos = tokenStart) :
    LoopTiles tokenStart sc (scanLoop tokenStart rest sc) := by
  induction rest generalizing sc with
  | nil => exact Edits.refl _
  | cons byte rest ih =>
    simp only [scanLoop]
    split_ifs with ht
    · exact ⟨Edits.refl _, bounded_emit bounded_zero _ _ _ _, hg ht.1, rfl⟩
    · have hfits := dispatch_fits sc.state sc.seq byte
      have hedits := dispatch_edits sc.state sc.seq byte
      cases hd : dispatch sc.state sc.seq byte with
      | advance state seq =>
        rw [hd] at hfits hedits
        have hs := ih { sc with pos := sc.pos + 1, state := state, seq := seq }
          (bounded_edits hb hedits) (Nat.le_succ_of_le hts) fun h => absurd h hfits
        simp only
        generalize scanLoop tokenStart rest { sc with pos := sc.pos + 1, state := state, seq := seq } = r at hs
        obtain ⟨sc', _ | token⟩ := r
        · exact hedits.trans hs
        · exact ⟨hedits.trans hs.1, hs.2⟩
      | report seq kind finalByte =>
        rw [hd] at hedits
        refine ⟨hedits.edit .clearSequence, bounded_emit (bounded_edits hb hedits) _ _ _ _, rfl, ?_⟩
        simp only [emit]
        omega
      | control seq finalByte =>
        rw [hd] at hfits hedits
        exact ⟨hedits, bounded_emit bounded_zero _ _ _ _, hg hfits, rfl⟩

/-! ## One buffer -/

theorem Scanner.Ready.tokenStart_eq {sc : Scanner} {bytes : List UInt8} (h : sc.Ready bytes) :
    sc.tokenStart = sc.pos := by
  unfold Scanner.tokenStart
  split_ifs with hs
  · exact (h.pos_eq hs).symm
  · rfl

/-- A token has bytes, but for the report of a sequence that an empty last buffer cuts off. -/
def Token.Progresses (bytes : List UInt8) (eof : Eof) (tokens : List Token) (token : Token) : Prop :=
  0 < token.length ∨
    token.kind = .malformed ∧ token.length = 0 ∧ tokens = [token] ∧ bytes = [] ∧ eof = .final

/-- The cursor is at the start of the next buffer. -/
def Scanner.Rewound (sc : Scanner) : Prop := sc.pos = 0 ∧ sc.bufferDone = false

/-- What draining a buffer from its cursor on yields. -/
structure Drained (sc sc' : Scanner) (bytes : List UInt8) (eof : Eof) (tokens : List Token) : Prop where
  rewound : sc'.Rewound
  tiles : Tiles sc.pos tokens bytes.length
  progresses : ∀ token ∈ tokens, token.Progresses bytes eof tokens
  bounded : ∀ token ∈ tokens, token.Bounded
  edits : Edits sc.seq sc'.seq

/-- A scanner that has consumed its buffer has nothing more to say about it. -/
theorem drain_consumed {fuel : Nat} {sc sc' : Scanner} {bytes : List UInt8} {eof : Eof}
    {tokens : List Token} (h : drain fuel sc bytes eof = some (tokens, sc'))
    (hd : sc.bufferDone = true ∨ bytes.length ≤ sc.pos) (hg : eof = .final → sc.state = .ground) :
    tokens = [] ∧ sc' = { sc with bufferDone := false, pos := 0 } := by
  cases fuel with
  | zero => cases h
  | succ fuel =>
    rw [drain_done fuel hd hg] at h
    cases h
    exact ⟨rfl, rfl⟩

theorem drain_token {fuel : Nat} {sc sc' sc'' : Scanner} {bytes : List UInt8} {eof : Eof}
    {token : Token} {tokens : List Token} (hs : scan sc bytes eof = (sc'', some token))
    (h : drain (fuel + 1) sc bytes eof = some (tokens, sc')) :
    ∃ rest, tokens = token :: rest ∧ drain fuel sc'' bytes eof = some (rest, sc') := by
  simp only [drain, hs, Option.map_eq_some_iff, Prod.exists, Prod.mk.injEq] at h
  obtain ⟨rest, sc1, hd, rfl, rfl⟩ := h
  exact ⟨rest, rfl, hd⟩

/-- The one token of a buffer that leaves nothing behind. -/
theorem drained_last {sc sc' : Scanner} {bytes : List UInt8} {eof : Eof} {token : Token}
    (hr : sc'.Rewound) (ho : token.offset = sc.pos) (hl : sc.pos + token.length = bytes.length)
    (hp : token.Progresses bytes eof [token]) (hb : token.Bounded) (he : Edits sc.seq sc'.seq) :
    Drained sc sc' bytes eof [token] :=
  ⟨hr, ⟨ho, hl⟩, List.forall_mem_singleton.2 hp, List.forall_mem_singleton.2 hb, he⟩

theorem drain_drained (fuel : Nat) {sc sc' : Scanner} {bytes : List UInt8} {eof : Eof}
    {tokens : List Token} (hr : sc.Ready bytes) (hb : sc.seq.Bounded)
    (h : drain fuel sc bytes eof = some (tokens, sc')) : Drained sc sc' bytes eof tokens := by
  induction fuel generalizing sc tokens with
  | zero => cases h
  | succ fuel ih =>
    by_cases hlen : bytes.length ≤ sc.pos
    · have hpos : sc.pos = bytes.length := Nat.le_antisymm hr.pos_le hlen
      by_cases hfin : eof = .final ∧ sc.state ≠ .ground
      · have hzero := hr.pos_eq hfin.2
        have hempty : bytes = [] := List.eq_nil_of_length_eq_zero (hpos.symm.trans hzero)
        have hscan : scan sc bytes eof =
            (abandon { sc with bufferDone := false, pos := 0 }, some (emit sc.seq .malformed 0 0 0)) := by
          simp [scan, hlen, hfin]
        obtain ⟨rest, rfl, hrest⟩ := drain_token hscan h
        have hnil : bytes.length ≤ 0 := hzero ▸ hlen
        obtain ⟨rfl, rfl⟩ := drain_consumed hrest (.inr hnil) fun _ => rfl
        apply drained_last ⟨rfl, rfl⟩ hzero.symm
        · exact hpos
        · exact .inr ⟨rfl, rfl, rfl, hempty, hfin.1⟩
        · exact bounded_emit hb _ _ _ _
        · exact (Edits.refl _).edit .clearSequence
      · have hg : eof = .final → sc.state = .ground := fun he => by_contra fun hs => hfin ⟨he, hs⟩
        rw [drain_done fuel (.inr hlen) hg] at h
        cases h
        exact ⟨⟨rfl, rfl⟩, hpos, List.forall_mem_nil _, by rintro _ ⟨⟩, Edits.refl _⟩
    · have hspec := scanLoop_spec sc.tokenStart bytes _ sc rfl sc.tokenStart_le
      have htiles := scanLoop_tiles sc.tokenStart (bytes.drop sc.pos) sc hb sc.tokenStart_le
        fun _ => hr.tokenStart_eq.symm
      have hts := hr.tokenStart_eq
      generalize hl : scanLoop sc.tokenStart (bytes.drop sc.pos) sc = r at hspec htiles
      obtain ⟨sc1, _ | token⟩ := r
      · have hscan := scan_none eof hr.bufferDone hlen hl
        cases eof with
        | more =>
          obtain ⟨rest, rfl, hrest⟩ := drain_token hscan h
          obtain ⟨rfl, rfl⟩ := drain_consumed hrest (.inl rfl) (by rintro ⟨⟩)
          apply drained_last ⟨rfl, rfl⟩ hts
          · simp only [emitSimple, emit]
            omega
          · exact .inl (by simp only [emitSimple, emit]; omega)
          · exact bounded_emit bounded_zero _ _ _ _
          · exact htiles
        | final =>
          obtain ⟨rest, rfl, hrest⟩ := drain_token hscan h
          obtain ⟨rfl, rfl⟩ := drain_consumed hrest (.inl rfl) fun _ => rfl
          apply drained_last ⟨rfl, rfl⟩ hts
          · simp only [emit]
            omega
          · exact .inl (by simp only [emit]; omega)
          · exact bounded_emit (bounded_edits hb htiles) _ _ _ _
          · exact htiles.edit .clearSequence
      · obtain ⟨-, hle, hdone, hground, hpositive, -, -⟩ := hspec
        obtain ⟨hedits, hbounded, hoffset, hend⟩ := htiles
        obtain ⟨rest, rfl, hrest⟩ := drain_token (scan_some eof hr.bufferDone hlen hl) h
        have hs := ih ⟨hdone.trans hr.bufferDone, hle, fun hs => absurd hground hs⟩
          (bounded_edits hb hedits) hrest
        constructor
        · exact hs.rewound
        · refine ⟨hoffset.trans hts, ?_⟩
          rw [← hts, ← hoffset, hend]
          exact hs.tiles
        · refine List.forall_mem_cons.2 ⟨.inl hpositive, fun t ht => .inl ?_⟩
          rcases hs.progresses t ht with hlt | ⟨-, -, -, rfl, -⟩
          · exact hlt
          · exact absurd (Nat.zero_le _) hlen
        · exact List.forall_mem_cons.2 ⟨hbounded, hs.bounded⟩
        · exact hedits.trans hs.edits

/-! ## Every buffer -/

theorem sum_length_tiles {tokens : List Token} {start stop : Nat} (h : Tiles start tokens stop) :
    start + (tokens.map Token.length).sum = stop := by
  induction tokens generalizing start with
  | nil => exact h
  | cons token tokens ih =>
    rw [List.map_cons, List.sum_cons, ← Nat.add_assoc]
    exact ih h.2

theorem Scanner.Rewound.ready {sc : Scanner} (h : sc.Rewound) (bytes : List UInt8) : sc.Ready bytes :=
  ⟨h.2, h.1 ▸ Nat.zero_le _, fun _ => h.1⟩

theorem Scanner.Reachable.rewound {sc : Scanner} (h : sc.Reachable) : sc.Rewound ∧ sc.seq.Bounded := by
  induction h with
  | init => exact ⟨⟨rfl, rfl⟩, bounded_zero⟩
  | @drained sc sc' fuel bytes eof tokens _ hd ih =>
    have hdrained := drain_drained fuel (ih.1.ready bytes) ih.2 hd
    exact ⟨hdrained.rewound, bounded_edits ih.2 hdrained.edits⟩

/-- Draining a buffer ends. The tokens lie end to end over it, each has bytes or is the last report
of a sequence cut off, and all that the scanner writes or stores is within its arrays. -/
theorem drain_terminates {sc : Scanner} (h : sc.Reachable) (bytes : List UInt8) (eof : Eof) :
    (∃ tokens sc', drain (bytes.length + 2) sc bytes eof = some (tokens, sc') ∧
      Tiles 0 tokens bytes.length ∧ (tokens.map Token.length).sum = bytes.length ∧
      (∀ token ∈ tokens, token.Progresses bytes eof tokens) ∧
      (∀ token ∈ tokens, token.Bounded) ∧ Edits sc.seq sc'.seq) ∧
    ∀ seq, Edits sc.seq seq → seq.Bounded ∧ ∀ edit, ∀ slot ∈ Edit.slots seq edit, slot.1 < slot.2 := by
  obtain ⟨hrewound, hbounded⟩ := h.rewound
  have hready := hrewound.ready bytes
  constructor
  · obtain ⟨tokens, sc', hdrain, -⟩ :=
      drain_spec (bytes.length + 2) eof hready (Nat.add_le_add_right (Nat.sub_le _ _) 2)
    have hdrained := drain_drained _ hready hbounded hdrain
    have htiles := hrewound.1 ▸ hdrained.tiles
    have hsum := sum_length_tiles htiles
    rw [Nat.zero_add] at hsum
    exact ⟨tokens, sc', hdrain, htiles, hsum, hdrained.progresses, hdrained.bounded, hdrained.edits⟩
  · intro seq hedits
    have hb := bounded_edits hbounded hedits
    exact ⟨hb, slots_inside hb⟩

/-- A scanner inside a sequence whose parameters do not fit, and the rest of the sequence. -/
theorem drain_terminates_resumed :
    ∃ sc : Scanner, sc.Reachable ∧ sc.state = .csiParam ∧
      (∃ tokens sc', drain 4 sc [0x39, 0x6D] .final = some (tokens, sc') ∧
        Tiles 0 tokens 2 ∧ (tokens.map Token.length).sum = 2 ∧
        (∀ token ∈ tokens, token.Progresses [0x39, 0x6D] .final tokens) ∧
        (∀ token ∈ tokens, token.Bounded) ∧ Edits sc.seq sc'.seq) ∧
      ∀ seq, Edits sc.seq seq → seq.Bounded ∧ ∀ edit, ∀ slot ∈ Edit.slots seq edit, slot.1 < slot.2 := by
  have hfirst : Scanner.Reachable
      ((drain 20 .init ([0x1B, 0x5B] ++ List.replicate 17 0x3B) .more).get (by decide +kernel)).2 :=
    .drained .init (by rw [Option.some_get])
  exact ⟨_, hfirst, by decide +kernel, drain_terminates hfirst [0x39, 0x6D] .final⟩

end SupraHarness.Ansi
