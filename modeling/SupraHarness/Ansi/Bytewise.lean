import SupraHarness.Ansi.Scanner
import SupraHarness.Lib.Transducer

/-!
# The scanner, one byte at a time

The same machine as a transducer: it reads single bytes and writes what a consumer sees of them,
bytes of text and completed tokens. The position in the buffer is gone, and what is left of the
text loop is the flag `inRun`. Draining a buffer through `scan` is running the transducer over
its bytes.
-/
namespace SupraHarness.Ansi

/-- A byte of text, or a completed token without its place in a buffer. -/
inductive Item where
  | text (byte : UInt8)
  | token (body : Token)
  deriving DecidableEq, Repr

structure Core where
  state : State
  utf8Expect : Nat
  inRun : Bool
  seq : Sequence
  deriving DecidableEq, Repr

def Core.init : Core := ⟨.ground, 0, false, Sequence.zero⟩

/-- What one byte outside a text run makes of the machine. -/
def Core.after (c : Core) : Outcome → Core × List Item
  | .advance state seq => ({ c with state := state, seq := seq }, [])
  | .report seq kind finalByte =>
    ({ c with state := .ground, seq := clearSequence seq }, [.token (emit seq kind 0 0 finalByte)])
  | .control seq finalByte => ({ c with seq := seq }, [.token (emitSimple .control 0 0 finalByte)])

def Core.step (c : Core) (byte : UInt8) : Core × List Item :=
  if c.state = .ground then
    if midCharacter c.utf8Expect byte then
      ({ c with utf8Expect := c.utf8Expect - 1, inRun := true }, [.text byte])
    else if stopsText byte then
      Core.after { c with utf8Expect := if c.inRun then 0 else c.utf8Expect, inRun := false }
        (dispatch .ground c.seq byte)
    else ({ c with utf8Expect := leadExpect byte, inRun := true }, [.text byte])
  else c.after (dispatch c.state c.seq byte)

/-- The end of a buffer ends the text loop, and nothing else. -/
def Core.boundary (c : Core) : Core := { c with inRun := false }

/-- The token of a stream that ends inside a sequence. -/
def Core.atEnd (c : Core) : List Item :=
  if c.state = .ground then [] else [.token (emit c.seq .malformed 0 0 0)]

def Core.run (c : Core) (bytes : List UInt8) : Core × List Item :=
  let r := Transducer.run Core.step c bytes
  (r.1.boundary, r.2)

/-- The machine after the end of the stream. -/
def Core.closed (c : Core) : Core :=
  if c.state = .ground then c else ⟨.ground, 0, c.inRun, clearSequence c.seq⟩

/-- A whole buffer. -/
def Core.feed (c : Core) (bytes : List UInt8) (eof : Eof) : Core × List Item :=
  let r := c.run bytes
  if eof = .final then (r.1.closed, r.2 ++ r.1.atEnd) else r

/-- What a consumer sees of a token: `PARTIAL` is bookkeeping and shows nothing. -/
def observe (bytes : List UInt8) (t : Token) : List Item :=
  match t.kind with
  | .text => ((bytes.drop t.offset).take t.length).map .text
  | .part => []
  | _ => [.token { t with offset := 0, length := 0 }]

theorem observe_emit {kind : TokenKind} (ht : kind ≠ .text) (hp : kind ≠ .part)
    (bytes : List UInt8) (seq : Sequence) (offset length : Nat) (finalByte : UInt8) :
    observe bytes (emit seq kind offset length finalByte) = [.token (emit seq kind 0 0 finalByte)] := by
  cases kind <;> first | exact absurd rfl ht | exact absurd rfl hp | rfl

/-- A token spans some bytes of its buffer; only the end of the stream is reported for none. -/
def Token.Placed (bytes : List UInt8) (eof : Eof) (t : Token) : Prop :=
  0 < t.length ∧ t.offset + t.length ≤ bytes.length ∨ eof = .final ∧ t.kind = .malformed

theorem Token.Placed.text {bytes : List UInt8} {eof : Eof} {t : Token} (h : t.Placed bytes eof)
    (ht : t.kind = .text) : 0 < t.length ∧ t.offset + t.length ≤ bytes.length :=
  h.resolve_right fun hm => nomatch ht.symm.trans hm.2

/-! ## Single steps -/

/-- What the `switch` may answer in a given state. -/
def Outcome.Fits (state : State) : Outcome → Prop
  | .advance state' _ => state' ≠ .ground
  | .report _ kind _ => state ≠ .ground ∧ kind ≠ .text ∧ kind ≠ .part
  | .control _ _ => state = .ground

/-- A `break` leaves the scanner inside a sequence, a report ends one, and only Ground has lone
control bytes. -/
theorem dispatch_fits (state : State) (seq : Sequence) (byte : UInt8) :
    (dispatch state seq byte).Fits state := by
  unfold dispatch
  split_ifs with hcancel
  · exact ⟨hcancel.2, nofun, nofun⟩
  cases state with
  | ground => unfold onGround; split_ifs <;> simp [Outcome.Fits]
  | escape => unfold onEscape; split_ifs <;> simp [Outcome.Fits]
  | escapeIntermediate => unfold onEscapeIntermediate; split_ifs <;> simp [Outcome.Fits]
  | csiEntry => unfold onCsiParam; split_ifs <;> simp [Outcome.Fits]
  | csiParam => unfold onCsiParam; split_ifs <;> simp [Outcome.Fits]
  | csiIntermediate => unfold onCsiIntermediate; split_ifs <;> simp [Outcome.Fits]
  | csiIgnore => unfold onCsiIgnore; split_ifs <;> simp [Outcome.Fits]
  | oscString => unfold onOscString; split_ifs <;> simp [Outcome.Fits]
  | oscEsc => unfold onOscEsc; split_ifs <;> simp [Outcome.Fits]
  | dcsEntry => unfold onDcsParam; split_ifs <;> simp [Outcome.Fits]
  | dcsParam => unfold onDcsParam; split_ifs <;> simp [Outcome.Fits]
  | dcsIntermediate => unfold onDcsIntermediate; split_ifs <;> simp [Outcome.Fits]
  | dcsPassthrough => unfold onDcsPassthrough; split_ifs <;> simp [Outcome.Fits]
  | dcsEsc => unfold onDcsEsc; split_ifs <;> simp [Outcome.Fits]
  | dcsIgnore => unfold onDcsIgnore; split_ifs <;> simp [Outcome.Fits]
  | apcString => unfold onApcString; split_ifs <;> simp [Outcome.Fits]
  | apcEsc => unfold onApcEsc; split_ifs <;> simp [Outcome.Fits]

@[simp] theorem boundary_boundary (c : Core) : c.boundary.boundary = c.boundary := rfl

@[simp] theorem core_run_nil (c : Core) : c.run [] = (c.boundary, []) := rfl

theorem core_run_cons {c c' : Core} {byte : UInt8} {items : List Item} (h : c.step byte = (c', items))
    (rest : List UInt8) : c.run (byte :: rest) = ((c'.run rest).1, items ++ (c'.run rest).2) := by
  simp [Core.run, h]

theorem step_sequence {c : Core} (h : c.state ≠ .ground) (byte : UInt8) :
    c.step byte = c.after (dispatch c.state c.seq byte) := by
  simp [Core.step, h]

theorem step_text (c : Core) (h : c.state = .ground) {byte : UInt8}
    (hm : midCharacter c.utf8Expect byte = true) :
    c.step byte = ({ c with utf8Expect := c.utf8Expect - 1, inRun := true }, [.text byte]) := by
  simp [Core.step, h, hm]

theorem step_stop (c : Core) (h : c.state = .ground) {byte : UInt8}
    (hm : midCharacter c.utf8Expect byte = false) (hs : stopsText byte = true) :
    c.step byte =
      Core.after { c with utf8Expect := if c.inRun then 0 else c.utf8Expect, inRun := false }
        (dispatch .ground c.seq byte) := by
  simp [Core.step, h, hm, hs]

theorem step_lead (c : Core) (h : c.state = .ground) {byte : UInt8}
    (hm : midCharacter c.utf8Expect byte = false) (hs : stopsText byte = false) :
    c.step byte = ({ c with utf8Expect := leadExpect byte, inRun := true }, [.text byte]) := by
  simp [Core.step, h, hm, hs]

theorem core_run_congr {c c' : Core} {byte : UInt8} (h : c.step byte = c'.step byte) (rest : List UInt8) :
    c.run (byte :: rest) = c'.run (byte :: rest) := by
  simp [Core.run, h]

/-! ## The text loop -/

theorem textRun_le (e : Nat) (bytes : List UInt8) : (textRun e bytes).1 ≤ bytes.length := by
  induction bytes generalizing e with
  | nil => simp [textRun]
  | cons byte rest ih =>
    simp only [textRun, List.length_cons]
    split_ifs
    · exact Nat.succ_le_succ (ih _)
    · exact Nat.zero_le _
    · exact Nat.succ_le_succ (ih _)

theorem textRun_pos {e : Nat} {byte : UInt8} (h : startsText e byte = true) (rest : List UInt8) :
    0 < (textRun e (byte :: rest)).1 := by
  simp only [textRun]
  split_ifs with hm hs
  · exact Nat.succ_pos _
  · simp [startsText_eq, hm, hs] at h
  · exact Nat.succ_pos _

/-- Inside the text loop the machine writes the bytes the loop consumes. -/
theorem run_textRun (c : Core) (hg : c.state = .ground) (hr : c.inRun = true) (bytes : List UInt8) :
    c.run bytes =
      let r := textRun c.utf8Expect bytes
      let t := Core.run { c with utf8Expect := r.2, inRun := false } (bytes.drop r.1)
      (t.1, (bytes.take r.1).map .text ++ t.2) := by
  induction bytes generalizing c with
  | nil => simp [textRun, Core.boundary]
  | cons byte rest ih =>
    by_cases hm : midCharacter c.utf8Expect byte = true
    · have hc := ih { c with utf8Expect := c.utf8Expect - 1, inRun := true } hg rfl
      rw [core_run_cons (step_text _ hg hm), hc]
      simp [textRun, hm]
    · rw [Bool.not_eq_true] at hm
      cases hs : stopsText byte with
      | true =>
        have hstop : c.step byte = Core.step { c with utf8Expect := 0, inRun := false } byte := by
          rw [step_stop c hg hm hs,
            step_stop { c with utf8Expect := 0, inRun := false } hg (midCharacter_zero byte) hs]
          simp [hr]
        rw [core_run_congr hstop]
        simp [textRun, hm, hs]
      | false =>
        have hc := ih { c with utf8Expect := leadExpect byte, inRun := true } hg rfl
        rw [core_run_cons (step_lead _ hg hm hs), hc]
        simp [textRun, hm, hs]

/-- Entering the text loop sets the flag, and changes nothing else. -/
theorem run_startsText {c : Core} (hg : c.state = .ground) {byte : UInt8}
    (h : startsText c.utf8Expect byte = true) (rest : List UInt8) :
    c.run (byte :: rest) = Core.run { c with inRun := true } (byte :: rest) := by
  have hstep : c.step byte = Core.step { c with inRun := true } byte := by
    by_cases hm : midCharacter c.utf8Expect byte = true
    · exact (step_text c hg hm).trans (step_text { c with inRun := true } hg hm).symm
    · rw [Bool.not_eq_true] at hm
      have hs : stopsText byte = false := by simpa [startsText_eq, hm] using h
      exact (step_lead c hg hm hs).trans (step_lead { c with inRun := true } hg hm hs).symm
  exact core_run_congr hstep rest

/-! ## One call, one buffer -/

theorem feed_of_run {c c' : Core} {bytes rest : List UInt8} {items : List Item} (eof : Eof)
    (h : c.run bytes = ((c'.run rest).1, items ++ (c'.run rest).2)) :
    c.feed bytes eof = ((c'.feed rest eof).1, items ++ (c'.feed rest eof).2) := by
  simp only [Core.feed, h]
  split_ifs
  · rw [List.append_assoc]
  · rfl

/-- The machine a scanner is between two tokens. -/
def Scanner.core (sc : Scanner) : Core := ⟨sc.state, sc.utf8Expect, false, sc.seq⟩

theorem Scanner.tokenStart_le (sc : Scanner) : sc.tokenStart ≤ sc.pos := by
  unfold Scanner.tokenStart
  split_ifs
  · exact Nat.zero_le _
  · exact Nat.le_refl _

/-- A byte outside a text run does to the scanner what it does to the machine. -/
theorem step_core {sc : Scanner} {byte : UInt8}
    (h : ¬ (sc.state = .ground ∧ startsText sc.utf8Expect byte = true)) :
    sc.core.step byte = sc.core.after (dispatch sc.state sc.seq byte) := by
  by_cases hg : sc.state = .ground
  · have hs := not_startsText fun hs => h ⟨hg, hs⟩
    rw [step_stop _ hg hs.1 hs.2]
    simp [Scanner.core, hg]
  · exact step_sequence hg byte

/-- What one pass of the scanning loop over `rest`, the buffer from the cursor on, amounts to. -/
def LoopSpec (bytes rest : List UInt8) (sc : Scanner) : Scanner × Option Token → Prop
  | (sc', none) =>
    sc.core.run rest = (sc'.core, []) ∧ sc'.bufferDone = sc.bufferDone ∧
      (rest ≠ [] ∨ sc.state ≠ .ground → sc'.state ≠ .ground)
  | (sc', some token) =>
    sc.pos < sc'.pos ∧ sc'.pos ≤ bytes.length ∧ sc'.bufferDone = sc.bufferDone ∧
      sc'.state = .ground ∧ 0 < token.length ∧ token.offset + token.length ≤ bytes.length ∧
      sc.core.run rest =
        ((sc'.core.run (bytes.drop sc'.pos)).1,
          observe bytes token ++ (sc'.core.run (bytes.drop sc'.pos)).2)

theorem scanLoop_spec (tokenStart : Nat) (bytes rest : List UInt8) (sc : Scanner)
    (h : bytes.drop sc.pos = rest) (hts : tokenStart ≤ sc.pos) :
    LoopSpec bytes rest sc (scanLoop tokenStart rest sc) := by
  induction rest generalizing sc with
  | nil => exact ⟨rfl, rfl, fun hs => hs.resolve_left (· rfl)⟩
  | cons byte rest ih =>
    have hlen : sc.pos + (rest.length + 1) = bytes.length := by
      have := congrArg List.length h
      simp only [List.length_drop, List.length_cons] at this
      omega
    have hrest : bytes.drop (sc.pos + 1) = rest := by
      rw [← List.drop_drop, h, List.drop_one, List.tail_cons]
    simp only [scanLoop]
    split_ifs with ht
    · have hle := textRun_le sc.utf8Expect (byte :: rest)
      rw [List.length_cons] at hle
      have hrun := run_textRun { sc.core with inRun := true } ht.1 rfl (byte :: rest)
      have hend : sc.pos + (textRun sc.utf8Expect (byte :: rest)).1 ≤ bytes.length := by omega
      refine ⟨Nat.lt_add_of_pos_right (textRun_pos ht.2 rest), hend, rfl, ht.1,
        textRun_pos ht.2 rest, hend, ?_⟩
      · rw [run_startsText (c := sc.core) ht.1 ht.2, hrun]
        simp only [observe, emitSimple, emit, ← List.drop_drop, h]
        rfl
    · have hstep := step_core ht
      have hfits := dispatch_fits sc.state sc.seq byte
      cases hd : dispatch sc.state sc.seq byte with
      | advance state seq =>
        have hs := ih { sc with pos := sc.pos + 1, state := state, seq := seq } hrest (Nat.le_succ_of_le hts)
        rw [hd] at hstep hfits
        have hrun := core_run_cons hstep rest
        simp only
        generalize hr : scanLoop tokenStart rest
          { sc with pos := sc.pos + 1, state := state, seq := seq } = r at hs
        obtain ⟨sc', _ | token⟩ := r
        · exact ⟨hrun.trans hs.1, hs.2.1, fun _ => hs.2.2 (.inr hfits)⟩
        · obtain ⟨hlt, hle, hd, hg, hpos, hend, hr⟩ := hs
          exact ⟨Nat.lt_of_succ_lt hlt, hle, hd, hg, hpos, hend, hrun.trans hr⟩
      | report seq kind finalByte =>
        rw [hd] at hstep hfits
        refine ⟨Nat.lt_succ_self _, by simp only; omega, rfl, rfl,
          by simp only [emit]; omega, by simp only [emit]; omega, ?_⟩
        rw [core_run_cons hstep, hrest, observe_emit hfits.2.1 hfits.2.2]
        rfl
      | control seq finalByte =>
        rw [hd] at hstep hfits
        refine ⟨Nat.lt_succ_self _, by simp only; omega, rfl, hfits, Nat.one_pos,
          by simp only [emitSimple, emit]; omega, ?_⟩
        rw [core_run_cons hstep, hrest]
        rfl

/-- A buffer that has been consumed answers 0, and leaves the cursor at its start. -/
theorem drain_done (fuel : Nat) {sc : Scanner} {bytes : List UInt8} {eof : Eof}
    (hd : sc.bufferDone = true ∨ bytes.length ≤ sc.pos) (hg : eof = .final → sc.state = .ground) :
    drain (fuel + 1) sc bytes eof = some ([], { sc with bufferDone := false, pos := 0 }) := by
  have hn : ¬ (eof = .final ∧ sc.state ≠ .ground) := fun h => h.2 (hg h.1)
  simp [drain, scan, hd, hn]

theorem scan_some {sc sc' : Scanner} {bytes : List UInt8} {token : Token} (eof : Eof)
    (hd : sc.bufferDone = false) (h : ¬ bytes.length ≤ sc.pos)
    (hr : scanLoop sc.tokenStart (bytes.drop sc.pos) sc = (sc', some token)) :
    scan sc bytes eof = (sc', some token) := by
  simp [scan, hd, h, hr]

theorem scan_none {sc sc' : Scanner} {bytes : List UInt8} (eof : Eof)
    (hd : sc.bufferDone = false) (h : ¬ bytes.length ≤ sc.pos)
    (hr : scanLoop sc.tokenStart (bytes.drop sc.pos) sc = (sc', none)) :
    scan sc bytes eof =
      let consumed := bytes.length - sc.tokenStart
      let sc' := { sc' with bufferDone := true }
      if eof = .final then (abandon sc', some (emit sc'.seq .malformed sc.tokenStart consumed 0))
      else ({ sc' with carried := sc'.carried + consumed },
        some (emitSimple .part sc.tokenStart consumed 0)) := by
  simp [scan, hd, h, hr]

/-- The last token of a buffer. -/
theorem drain_last (fuel : Nat) {sc sc' : Scanner} {bytes : List UInt8} {eof : Eof} {token : Token}
    (h : scan sc bytes eof = (sc', some token))
    (hd : sc'.bufferDone = true ∨ bytes.length ≤ sc'.pos) (hg : eof = .final → sc'.state = .ground) :
    drain (fuel + 2) sc bytes eof = some ([token], { sc' with bufferDone := false, pos := 0 }) := by
  rw [drain, h]
  simp only
  rw [drain_done fuel hd hg]
  rfl

/-- Between two calls on one buffer: not consumed, and inside a sequence only at its start. -/
structure Scanner.Ready (sc : Scanner) (bytes : List UInt8) : Prop where
  bufferDone : sc.bufferDone = false
  pos_le : sc.pos ≤ bytes.length
  pos_eq : sc.state ≠ .ground → sc.pos = 0

/-- Draining what is left of a buffer is running the machine over it, in at most one call for
each byte and two more. -/
theorem drain_spec (fuel : Nat) {sc : Scanner} {bytes : List UInt8} (eof : Eof)
    (h : sc.Ready bytes) (hf : bytes.length - sc.pos + 2 ≤ fuel) :
    ∃ tokens sc', drain fuel sc bytes eof = some (tokens, sc') ∧ sc'.pos = 0 ∧
      sc'.bufferDone = false ∧ (∀ token ∈ tokens, token.Placed bytes eof) ∧
      sc.core.feed (bytes.drop sc.pos) eof = (sc'.core, tokens.flatMap (observe bytes)) := by
  induction fuel generalizing sc with
  | zero => omega
  | succ fuel ih =>
    obtain ⟨fuel, rfl⟩ : ∃ n, fuel = n + 1 := ⟨fuel - 1, by omega⟩
    by_cases hlen : bytes.length ≤ sc.pos
    · have hnil : bytes.drop sc.pos = [] := List.drop_eq_nil_of_le hlen
      by_cases hfin : eof = .final ∧ sc.state ≠ .ground
      · have hscan : scan sc bytes eof =
            (abandon { sc with bufferDone := false, pos := 0 }, some (emit sc.seq .malformed 0 0 0)) := by
          simp [scan, hlen, hfin]
        have hempty : bytes.length ≤ 0 := h.pos_eq hfin.2 ▸ hlen
        refine ⟨_, _, drain_last fuel hscan (.inr hempty) fun _ => rfl, rfl, rfl,
          by simp [Token.Placed, emit, hfin.1], ?_⟩
        simp [Core.feed, hnil, hfin, Core.boundary, Core.closed, Scanner.core, abandon, Core.atEnd,
          observe, emit]
      · have hg : eof = .final → sc.state = .ground := fun he => by_contra fun hs => hfin ⟨he, hs⟩
        refine ⟨_, _, drain_done _ (.inr hlen) hg, rfl, rfl, by simp, ?_⟩
        rw [hnil, Core.feed]
        split_ifs with he
        · simp [Core.boundary, Core.closed, Core.atEnd, Scanner.core, hg he]
        · rfl
    · have hspec := scanLoop_spec sc.tokenStart bytes _ sc rfl sc.tokenStart_le
      have hts := sc.tokenStart_le
      generalize hr : scanLoop sc.tokenStart (bytes.drop sc.pos) sc = r at hspec
      obtain ⟨sc', _ | token⟩ := r
      · obtain ⟨hrun, -, hs⟩ := hspec
        have hs := hs (.inl (by simpa using hlen))
        have hscan := scan_none eof h.bufferDone hlen hr
        rw [Core.feed, hrun]
        cases eof with
        | more =>
          refine ⟨_, _, drain_last fuel hscan (.inl rfl) nofun, rfl, rfl,
            List.forall_mem_singleton.2 (.inl ⟨by simp only [emitSimple, emit]; omega,
              by simp only [emitSimple, emit]; omega⟩), ?_⟩
          rfl
        | final =>
          refine ⟨_, _, drain_last fuel hscan (.inl rfl) fun _ => rfl, rfl, rfl,
            by simp [Token.Placed, emit], ?_⟩
          simp [Core.closed, Core.atEnd, Scanner.core, hs, abandon, observe, emit]
      · obtain ⟨hlt, hle, hd, hg, hlength, hend, hrun⟩ := hspec
        obtain ⟨tokens, sc'', hdrain, hpos, hdone, hall, hfeed⟩ :=
          ih ⟨hd.trans h.bufferDone, hle, fun hs => absurd hg hs⟩ (by omega)
        refine ⟨token :: tokens, sc'', ?_, hpos, hdone, 
          List.forall_mem_cons.2 ⟨.inl ⟨hlength, hend⟩, hall⟩, ?_⟩
        · rw [drain, scan_some eof h.bufferDone hlen hr]
          simp [hdrain]
        · rw [feed_of_run eof hrun, hfeed, List.flatMap_cons]

end SupraHarness.Ansi
