import Mathlib.Data.List.Basic

/-!
# The escape sequence scanner

A resumable state machine over the DEC STD 070 / VT500 grammar. `scan` is one call of
`supra_ansi_scan`: it reads one buffer from the scanner's cursor and reports the next token,
or that the buffer is exhausted. The accumulators of the sequence in flight are kept in one
record, `Sequence`, and a payload is the list of its retained bytes; every other field is the
field of the C structure. The `switch` over the states is `dispatch`, and what each of its
branches does with the scanner is the `Outcome` that `scanLoop` carries out.
-/
namespace SupraHarness.Ansi

inductive State where
  | ground | escape | escapeIntermediate
  | csiEntry | csiParam | csiIntermediate | csiIgnore
  | oscString | oscEsc
  | dcsEntry | dcsParam | dcsIntermediate | dcsPassthrough | dcsEsc | dcsIgnore
  | apcString | apcEsc
  deriving DecidableEq, Repr

inductive TokenKind where
  | text | control | csi | esc | osc | dcs | apc | part | malformed
  deriving DecidableEq, Repr

inductive Eof where
  | more | final
  deriving DecidableEq, Repr

def kEsc : UInt8 := 0x1B
def kBel : UInt8 := 0x07
def kCan : UInt8 := 0x18
def kSub : UInt8 := 0x1A
def kC1Dcs : UInt8 := 0x90
def kC1Sos : UInt8 := 0x98
def kC1Csi : UInt8 := 0x9B
def kC1St : UInt8 := 0x9C
def kC1Osc : UInt8 := 0x9D
def kC1Pm : UInt8 := 0x9E
def kC1Apc : UInt8 := 0x9F

def kParamOmitted : Int := -1
def kParamMax : Int := 65535
def maxParams : Nat := 16
def maxSubparams : Nat := 8
def maxPayload : Nat := 256

def isC1 (byte : UInt8) : Bool := 0x80 ≤ byte && byte ≤ 0x9F
def isContinuation (byte : UInt8) : Bool := byte &&& 0xC0 == 0x80
def isIntermediateByte (byte : UInt8) : Bool := 0x20 ≤ byte && byte ≤ 0x2F
def isFinalByte (byte : UInt8) : Bool := 0x40 ≤ byte && byte ≤ 0x7E
def isCancel (byte : UInt8) : Bool := byte == kCan || byte == kSub
def isTextControl (byte : UInt8) : Bool := byte == 0x09 || byte == 0x0A

def isDigit (byte : UInt8) : Bool := 0x30 ≤ byte && byte ≤ 0x39
def isPrivateMarker (byte : UInt8) : Bool := 0x3C ≤ byte && byte ≤ 0x3F
def isEscFinal (byte : UInt8) : Bool := 0x30 ≤ byte && byte ≤ 0x7E

/-- The accumulators of the sequence in flight. -/
structure Sequence where
  intermediates : Vector UInt8 2
  intermediateCount : Nat
  params : Vector Int maxParams
  paramCount : Nat
  paramsDropped : Bool
  paramHasDigits : Bool
  inSubparam : Bool
  subparams : Vector Int maxSubparams
  subparamTotal : Nat
  subparamIndex : Vector Nat maxParams
  subparamCount : Vector Nat maxParams
  payload : List UInt8
  payloadFull : Nat
  deriving DecidableEq, Repr

/-- The zeroed accumulators of a fresh scanner. -/
def Sequence.zero : Sequence where
  intermediates := Vector.replicate _ 0
  intermediateCount := 0
  params := Vector.replicate _ 0
  paramCount := 0
  paramsDropped := false
  paramHasDigits := false
  inSubparam := false
  subparams := Vector.replicate _ 0
  subparamTotal := 0
  subparamIndex := Vector.replicate _ 0
  subparamCount := Vector.replicate _ 0
  payload := []
  payloadFull := 0

/-- Leaves `subparams` and `inSubparam` as they are, as the source does. -/
def clearSequence (sc : Sequence) : Sequence :=
  { sc with
    intermediateCount := 0
    intermediates := Vector.replicate _ 0
    paramCount := 0
    paramsDropped := false
    paramHasDigits := false
    subparamTotal := 0
    payload := []
    payloadFull := 0
    params := Vector.replicate _ 0
    subparamIndex := Vector.replicate _ 0
    subparamCount := Vector.replicate _ 0 }

def beginParam (sc : Sequence) : Sequence :=
  let sc := if sc.paramCount < maxParams then
      { sc with
        params := sc.params.setIfInBounds sc.paramCount kParamOmitted
        subparamIndex := sc.subparamIndex.setIfInBounds sc.paramCount sc.subparamTotal
        subparamCount := sc.subparamCount.setIfInBounds sc.paramCount 0 }
    else sc
  { sc with paramHasDigits := false, inSubparam := false }

def endParam (sc : Sequence) : Sequence :=
  let sc := if sc.paramCount < maxParams then { sc with paramCount := sc.paramCount + 1 }
    else { sc with paramsDropped := true }
  { sc with paramHasDigits := false, inSubparam := false }

/-- One more decimal digit, saturating at `kParamMax`. -/
def pushDigit (value : Int) (digit : UInt8) : Int :=
  if value ≤ kParamMax then
    let value := value * 10 + ((digit.toNat : Int) - 0x30)
    if kParamMax < value then kParamMax else value
  else value

def accumulateDigit (sc : Sequence) (digit : UInt8) : Sequence :=
  if maxParams ≤ sc.paramCount then { sc with paramsDropped := true }
  else
    let value := if sc.paramHasDigits then (sc.params[sc.paramCount]?).getD 0 else 0
    { sc with
      params := sc.params.setIfInBounds sc.paramCount (pushDigit value digit)
      paramHasDigits := true }

def beginSubparam (sc : Sequence) : Sequence :=
  let sc := if sc.paramCount < maxParams ∧ sc.subparamTotal < maxSubparams then
      { sc with
        subparams := sc.subparams.setIfInBounds sc.subparamTotal kParamOmitted
        subparamTotal := sc.subparamTotal + 1
        subparamCount := sc.subparamCount.setIfInBounds sc.paramCount
          ((sc.subparamCount[sc.paramCount]?).getD 0 + 1) }
    else sc
  { sc with paramHasDigits := false, inSubparam := true }

def accumulateSubparamDigit (sc : Sequence) (digit : UInt8) : Sequence :=
  if sc.subparamTotal = 0 then sc
  else
    let slot := sc.subparamTotal - 1
    let value := if sc.paramHasDigits then (sc.subparams[slot]?).getD 0 else 0
    { sc with
      subparams := sc.subparams.setIfInBounds slot (pushDigit value digit)
      paramHasDigits := true }

def appendPayload (sc : Sequence) (byte : UInt8) : Sequence :=
  { sc with
    payloadFull := sc.payloadFull + 1
    payload := if sc.payload.length < maxPayload then sc.payload ++ [byte] else sc.payload }

def addIntermediate (sc : Sequence) (byte : UInt8) : Sequence :=
  if sc.intermediateCount < 2 then
    { sc with
      intermediates := sc.intermediates.setIfInBounds sc.intermediateCount byte
      intermediateCount := sc.intermediateCount + 1 }
  else sc

/-- `sc.intermediates[1] = byte`: the final byte of a DCS, remembered for its token. -/
def rememberFinal (sc : Sequence) (byte : UInt8) : Sequence :=
  { sc with intermediates := sc.intermediates.set 1 byte }

structure Token where
  kind : TokenKind
  offset : Nat
  length : Nat
  finalByte : UInt8
  intermediates : Vector UInt8 2
  intermediateCount : Nat
  params : Vector Int maxParams
  paramCount : Nat
  paramsDropped : Bool
  subparams : Vector Int maxSubparams
  subparamIndex : Vector Nat maxParams
  subparamCount : Vector Nat maxParams
  payload : List UInt8
  payloadFull : Nat
  deriving DecidableEq, Repr

def emit (sc : Sequence) (kind : TokenKind) (offset length : Nat) (finalByte : UInt8) : Token where
  kind := kind
  offset := offset
  length := length
  finalByte := finalByte
  intermediates := sc.intermediates
  intermediateCount := sc.intermediateCount
  params := sc.params
  paramCount := sc.paramCount
  paramsDropped := sc.paramsDropped
  subparams := sc.subparams
  subparamIndex := sc.subparamIndex
  subparamCount := sc.subparamCount
  payload := sc.payload
  payloadFull := sc.payloadFull

/-- A token with every accumulated field zeroed. -/
def emitSimple (kind : TokenKind) (offset length : Nat) (finalByte : UInt8) : Token :=
  emit Sequence.zero kind offset length finalByte

/-- What one byte does outside a text run: `advance` is a `break` out of the `switch`, `report`
is `emit` followed by the return to Ground with cleared accumulators, and `control` is
`emitSimple` of a lone control byte in Ground. -/
inductive Outcome where
  | advance (state : State) (seq : Sequence)
  | report (seq : Sequence) (kind : TokenKind) (finalByte : UInt8)
  | control (seq : Sequence) (finalByte : UInt8)

/-- Ground, on a byte that starts no printable run. -/
def onGround (seq : Sequence) (byte : UInt8) : Outcome :=
  if byte = kEsc then .advance .escape (clearSequence seq)
  else if isC1 byte then
    let seq := clearSequence seq
    if byte = kC1Csi then .advance .csiEntry (beginParam seq)
    else if byte = kC1Osc then .advance .oscString seq
    else if byte = kC1Dcs then .advance .dcsEntry (beginParam seq)
    else if byte = kC1Sos ∨ byte = kC1Pm ∨ byte = kC1Apc then .advance .apcString seq
    else .control seq byte
  else .control seq byte

def onEscape (seq : Sequence) (byte : UInt8) : Outcome :=
  if byte = 0x5B then .advance .csiEntry (beginParam seq)
  else if byte = 0x5D then .advance .oscString seq
  else if byte = 0x50 then .advance .dcsEntry (beginParam seq)
  else if byte = 0x58 ∨ byte = 0x5E ∨ byte = 0x5F then .advance .apcString seq
  else if isIntermediateByte byte then .advance .escapeIntermediate (addIntermediate seq byte)
  else if isEscFinal byte then .report seq .esc byte
  else .report seq .malformed byte

def onEscapeIntermediate (seq : Sequence) (byte : UInt8) : Outcome :=
  if isIntermediateByte byte then .advance .escapeIntermediate (addIntermediate seq byte)
  else if isEscFinal byte then .report seq .esc byte
  else .report seq .malformed byte

def onCsiParam (seq : Sequence) (byte : UInt8) : Outcome :=
  if isDigit byte then
    .advance .csiParam
      (if seq.inSubparam then accumulateSubparamDigit seq byte else accumulateDigit seq byte)
  else if byte = 0x3B then .advance .csiParam (beginParam (endParam seq))
  else if byte = 0x3A then .advance .csiParam (beginSubparam seq)
  else if isPrivateMarker byte then .advance .csiParam (addIntermediate seq byte)
  else if isIntermediateByte byte then
    .advance .csiIntermediate (addIntermediate (endParam seq) byte)
  else if isFinalByte byte then .report (endParam seq) .csi byte
  else .advance .csiIgnore seq

def onCsiIntermediate (seq : Sequence) (byte : UInt8) : Outcome :=
  if isIntermediateByte byte then .advance .csiIntermediate (addIntermediate seq byte)
  else if isFinalByte byte then .report seq .csi byte
  else .advance .csiIgnore seq

def onCsiIgnore (seq : Sequence) (byte : UInt8) : Outcome :=
  if isFinalByte byte then .report seq .malformed byte else .advance .csiIgnore seq

def onOscString (seq : Sequence) (byte : UInt8) : Outcome :=
  if byte = kBel then .report seq .osc kBel
  else if byte = kEsc then .advance .oscEsc seq
  else if byte = kC1St then .report seq .osc kC1St
  else .advance .oscString (appendPayload seq byte)

def onOscEsc (seq : Sequence) (byte : UInt8) : Outcome :=
  if byte = 0x5C then .report seq .osc kC1St
  else .advance .oscString (appendPayload (appendPayload seq kEsc) byte)

def onDcsParam (seq : Sequence) (byte : UInt8) : Outcome :=
  if isDigit byte then .advance .dcsParam (accumulateDigit seq byte)
  else if byte = 0x3B then .advance .dcsParam (beginParam (endParam seq))
  else if isPrivateMarker byte then .advance .dcsParam (addIntermediate seq byte)
  else if isIntermediateByte byte then
    .advance .dcsIntermediate (addIntermediate (endParam seq) byte)
  else if isFinalByte byte then .advance .dcsPassthrough (rememberFinal (endParam seq) byte)
  else .advance .dcsIgnore seq

def onDcsIntermediate (seq : Sequence) (byte : UInt8) : Outcome :=
  if isIntermediateByte byte then .advance .dcsIntermediate (addIntermediate seq byte)
  else if isFinalByte byte then .advance .dcsPassthrough (rememberFinal seq byte)
  else .advance .dcsIgnore seq

def onDcsPassthrough (seq : Sequence) (byte : UInt8) : Outcome :=
  if byte = kEsc then .advance .dcsEsc seq
  else if byte = kC1St then .report seq .dcs seq.intermediates[1]
  else .advance .dcsPassthrough (appendPayload seq byte)

def onDcsEsc (seq : Sequence) (byte : UInt8) : Outcome :=
  if byte = 0x5C then .report seq .dcs seq.intermediates[1]
  else .advance .dcsPassthrough (appendPayload (appendPayload seq kEsc) byte)

def onDcsIgnore (seq : Sequence) (byte : UInt8) : Outcome :=
  if byte = kC1St then .report seq .malformed 0
  else if byte = kEsc then .advance .dcsEsc seq
  else .advance .dcsIgnore seq

def onApcString (seq : Sequence) (byte : UInt8) : Outcome :=
  if byte = kBel then .report seq .apc kBel
  else if byte = kEsc then .advance .apcEsc seq
  else if byte = kC1St then .report seq .apc kC1St
  else .advance .apcString (appendPayload seq byte)

def onApcEsc (seq : Sequence) (byte : UInt8) : Outcome :=
  if byte = 0x5C then .report seq .apc kC1St
  else .advance .apcString (appendPayload (appendPayload seq kEsc) byte)

/-- The `switch` of `supra_ansi_scan`, with the cancellation check in front of it. -/
def dispatch (state : State) (seq : Sequence) (byte : UInt8) : Outcome :=
  if isCancel byte ∧ state ≠ .ground then .report seq .malformed byte
  else match state with
    | .ground => onGround seq byte
    | .escape => onEscape seq byte
    | .escapeIntermediate => onEscapeIntermediate seq byte
    | .csiEntry | .csiParam => onCsiParam seq byte
    | .csiIntermediate => onCsiIntermediate seq byte
    | .csiIgnore => onCsiIgnore seq byte
    | .oscString => onOscString seq byte
    | .oscEsc => onOscEsc seq byte
    | .dcsEntry | .dcsParam => onDcsParam seq byte
    | .dcsIntermediate => onDcsIntermediate seq byte
    | .dcsPassthrough => onDcsPassthrough seq byte
    | .dcsEsc => onDcsEsc seq byte
    | .dcsIgnore => onDcsIgnore seq byte
    | .apcString => onApcString seq byte
    | .apcEsc => onApcEsc seq byte

/-- `mid_character`: a continuation byte of a character still in flight. -/
def midCharacter (utf8Expect : Nat) (byte : UInt8) : Bool := 0 < utf8Expect && isContinuation byte

/-- The entry condition of the text scan. -/
def startsText (utf8Expect : Nat) (byte : UInt8) : Bool :=
  byte != kEsc && byte != 0x7F && (midCharacter utf8Expect byte || !isC1 byte) &&
    (0x20 ≤ byte || isTextControl byte)

/-- The bytes that end a text run at a scalar boundary. -/
def stopsText (byte : UInt8) : Bool :=
  byte == kEsc || byte == 0x7F || (byte < 0x20 && !isTextControl byte) || isC1 byte

/-- Continuation bytes a lead byte announces; every other byte announces none. -/
def leadExpect (byte : UInt8) : Nat :=
  if 0xC2 ≤ byte ∧ byte ≤ 0xDF then 1
  else if 0xE0 ≤ byte ∧ byte ≤ 0xEF then 2
  else if 0xF0 ≤ byte ∧ byte ≤ 0xF4 then 3
  else 0

/-- The text loop: bytes consumed, and continuation bytes owed when it stops. A byte that is not
the continuation the loop expects drops the expectation and is read again at a boundary. -/
def textRun : Nat → List UInt8 → Nat × Nat
  | utf8Expect, [] => (0, utf8Expect)
  | utf8Expect, byte :: rest =>
    if midCharacter utf8Expect byte then
      let r := textRun (utf8Expect - 1) rest
      (r.1 + 1, r.2)
    else if stopsText byte then (0, 0)
    else
      let r := textRun (leadExpect byte) rest
      (r.1 + 1, r.2)

structure Scanner where
  state : State
  pos : Nat
  bufferDone : Bool
  utf8Expect : Nat
  seq : Sequence
  carried : Nat
  deriving DecidableEq, Repr

def Scanner.init : Scanner := ⟨.ground, 0, false, 0, Sequence.zero, 0⟩

def Scanner.pending (sc : Scanner) : Bool := sc.state ≠ .ground

/-- The loop `while (sc.pos < len)`, over the bytes from the cursor on. -/
def scanLoop (tokenStart : Nat) : List UInt8 → Scanner → Scanner × Option Token
  | [], sc => (sc, none)
  | byte :: rest, sc =>
    if sc.state = .ground ∧ startsText sc.utf8Expect byte then
      let r := textRun sc.utf8Expect (byte :: rest)
      ({ sc with pos := sc.pos + r.1, utf8Expect := r.2 }, some (emitSimple .text sc.pos r.1 0))
    else
      let pos := sc.pos + 1
      match dispatch sc.state sc.seq byte with
      | .advance state seq => scanLoop tokenStart rest { sc with pos := pos, state := state, seq := seq }
      | .report seq kind finalByte =>
        ({ sc with pos := pos, state := .ground, carried := 0, seq := clearSequence seq },
          some (emit seq kind tokenStart (pos - tokenStart) finalByte))
      | .control seq finalByte =>
        ({ sc with pos := pos, seq := seq }, some (emitSimple .control (pos - 1) 1 finalByte))

/-- The end of the stream inside a sequence: `MALFORMED`, and a scanner back in Ground. -/
def abandon (sc : Scanner) : Scanner :=
  { sc with state := .ground, carried := 0, utf8Expect := 0, seq := clearSequence sc.seq }

/-- Where the token in flight starts in this buffer: a resumed one covers it from the first byte. -/
def Scanner.tokenStart (sc : Scanner) : Nat := if sc.state ≠ .ground then 0 else sc.pos

def scan (sc : Scanner) (bytes : List UInt8) (eof : Eof) : Scanner × Option Token :=
  if sc.bufferDone ∨ bytes.length ≤ sc.pos then
    let sc := { sc with bufferDone := false, pos := 0 }
    if eof = .final ∧ sc.state ≠ .ground then (abandon sc, some (emit sc.seq .malformed 0 0 0))
    else (sc, none)
  else
    let tokenStart := sc.tokenStart
    match scanLoop tokenStart (bytes.drop sc.pos) sc with
    | (sc, some token) => (sc, some token)
    | (sc, none) =>
      let consumed := bytes.length - tokenStart
      let sc := { sc with bufferDone := true }
      if eof = .final then (abandon sc, some (emit sc.seq .malformed tokenStart consumed 0))
      else ({ sc with carried := sc.carried + consumed }, some (emitSimple .part tokenStart consumed 0))

/-- The caller's `while (supra_ansi_scan(..))` loop over one buffer, for at most `fuel` calls;
`none` when the calls run out before the scanner answers 0. -/
def drain : Nat → Scanner → List UInt8 → Eof → Option (List Token × Scanner)
  | 0, _, _, _ => none
  | fuel + 1, sc, bytes, eof =>
    match scan sc bytes eof with
    | (sc, none) => some ([], sc)
    | (sc, some token) => (drain fuel sc bytes eof).map fun r => (token :: r.1, r.2)

/-! ## Bytes -/

theorem isContinuation_iff (byte : UInt8) :
    isContinuation byte = true ↔ 0x80 ≤ byte ∧ byte ≤ 0xBF := by
  have h : ∀ n : Fin 256, isContinuation (UInt8.ofNat n) = true ↔
      0x80 ≤ UInt8.ofNat n ∧ UInt8.ofNat n ≤ 0xBF := by decide +kernel
  simpa using h ⟨byte.toNat, byte.toNat_lt⟩

theorem midCharacter_iff (e : Nat) (byte : UInt8) :
    midCharacter e byte = true ↔ 0 < e ∧ 0x80 ≤ byte ∧ byte ≤ 0xBF := by
  simp [midCharacter, isContinuation_iff]

theorem isTextControl_iff (byte : UInt8) : isTextControl byte = true ↔ byte.toNat = 9 ∨ byte.toNat = 10 := by
  simp only [isTextControl, Bool.or_eq_true, beq_iff_eq, ← UInt8.toNat_inj, UInt8.reduceToNat]

theorem stopsText_iff (byte : UInt8) :
    stopsText byte = true ↔ byte.toNat = 0x7F ∨ (byte.toNat < 0x20 ∧ byte.toNat ≠ 9 ∧ byte.toNat ≠ 10) ∨
      (0x80 ≤ byte.toNat ∧ byte.toNat ≤ 0x9F) := by
  simp only [stopsText, isC1, isTextControl, kEsc, Bool.and_eq_true, Bool.or_eq_true, Bool.not_eq_true',
    Bool.or_eq_false_iff, beq_iff_eq, beq_eq_false_iff_ne, ne_eq, decide_eq_true_eq, UInt8.le_iff_toNat_le,
    UInt8.lt_iff_toNat_lt, ← UInt8.toNat_inj, UInt8.reduceToNat]
  omega

theorem startsText_eq (e : Nat) (byte : UInt8) :
    startsText e byte = (midCharacter e byte || !stopsText byte) := by
  have hm := midCharacter_iff e byte
  rw [Bool.eq_iff_iff]
  simp only [startsText, stopsText, isC1, isTextControl, kEsc, Bool.and_eq_true, Bool.or_eq_true,
    Bool.not_eq_true', bne_iff_ne, beq_iff_eq, decide_eq_true_eq, hm, ← Bool.not_eq_true,
    ne_eq, UInt8.le_iff_toNat_le, UInt8.lt_iff_toNat_lt, ← UInt8.toNat_inj]
  grind

theorem not_startsText {e : Nat} {byte : UInt8} (h : ¬ startsText e byte = true) :
    midCharacter e byte = false ∧ stopsText byte = true := by
  simpa [startsText_eq] using h

@[simp] theorem midCharacter_zero (byte : UInt8) : midCharacter 0 byte = false := by
  simp [midCharacter]

end SupraHarness.Ansi
