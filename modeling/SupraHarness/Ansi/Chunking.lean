import SupraHarness.Ansi.Bytewise

/-!
# Streams in chunks

A stream reaches the scanner in chunks, the last of them flagged final. `scanChunked` drains them
all through one scanner and collects the completed tokens; `joinText` puts the text runs together
that a cut has torn apart. The tokens are the same for every way of cutting a stream exactly when
the stream is not `torn`: a stretch of text that a control interrupts in the middle of a
character, and a C1 byte that a lingering expectation would take for the rest of that character.
-/
namespace SupraHarness.Ansi

open Transducer

/-- A completed token: the bytes of a text run, or any other token without its place. -/
inductive Observed where
  | text (bytes : List UInt8)
  | sequence (body : Token)
  deriving DecidableEq, Repr

def completed (bytes : List UInt8) (t : Token) : List Observed :=
  match t.kind with
  | .text => [.text ((bytes.drop t.offset).take t.length)]
  | .part => []
  | _ => [.sequence { t with offset := 0, length := 0 }]

/-- Every chunk drained through one scanner, the last of them with `FINAL`. -/
def scanChunked : Scanner → List (List UInt8) → Option (List Observed)
  | _, [] => some []
  | sc, chunk :: rest =>
    match drain (chunk.length + 2) sc chunk (if rest.isEmpty then .final else .more) with
    | none => none
    | some (tokens, sc) => (scanChunked sc rest).map (tokens.flatMap (completed chunk) ++ ·)

/-- Adjacent text runs put together. -/
def joinText : List Observed → List Observed
  | [] => []
  | .text bytes :: rest =>
    match joinText rest with
    | .text more :: rest => .text (bytes ++ more) :: rest
    | rest => .text bytes :: rest
  | .sequence body :: rest => .sequence body :: joinText rest

/-- The completed tokens of a whole stream. -/
def tokensOf (chunks : List (List UInt8)) : Option (List Observed) :=
  (scanChunked Scanner.init chunks).map joinText

/-! ## Where a stream can be torn -/

def Outcome.next : Outcome → State
  | .advance state _ => state
  | .report _ _ _ => .ground
  | .control _ _ => .ground

/-- The state the grammar moves to. -/
def nextState (state : State) (byte : UInt8) : State := (dispatch state Sequence.zero byte).next

/-- A place in a stream: the state of the grammar, the continuation bytes that the character in
flight still owes, and those it would owe if no control could interrupt it. -/
structure Place where
  state : State
  owed : Nat
  lag : Nat
  deriving DecidableEq, Repr

def Place.init : Place := ⟨.ground, 0, 0⟩

/-- The expectation after a byte of text. -/
def nextExpect (utf8Expect : Nat) (byte : UInt8) : Nat :=
  if midCharacter utf8Expect byte then utf8Expect - 1 else leadExpect byte

/-- Whether a byte is text at a place. -/
def Place.isText (p : Place) (byte : UInt8) : Bool :=
  p.state = .ground && (midCharacter p.owed byte || !stopsText byte)

def Place.next (p : Place) (byte : UInt8) : Place :=
  if p.isText byte then
    { p with owed := nextExpect p.owed byte, lag := nextExpect p.lag byte }
  else
    ⟨nextState p.state byte, if p.state = .ground then 0 else p.owed, p.lag⟩

/-- A C1 byte in Ground that an interrupted character would have taken. -/
def Place.tears (p : Place) (byte : UInt8) : Bool :=
  p.state = .ground && p.owed == 0 && 0 < p.lag && isC1 byte

def tornFrom : Place → List UInt8 → Bool
  | _, [] => false
  | p, byte :: rest => p.tears byte || tornFrom (p.next byte) rest

def torn (stream : List UInt8) : Bool := tornFrom Place.init stream

/-! ## From tokens to items -/

def Observed.items : Observed → List Item
  | .text bytes => bytes.map .text
  | .sequence body => [.token body]

/-- A text run of some bytes, or another token. -/
def Observed.Full : Observed → Prop
  | .text bytes => bytes ≠ []
  | .sequence _ => True

theorem completed_items (bytes : List UInt8) (t : Token) :
    (completed bytes t).flatMap Observed.items = observe bytes t := by
  unfold completed observe
  cases t.kind <;> simp [Observed.items]

theorem completed_full {bytes : List UInt8} {eof : Eof} {t : Token} (h : t.Placed bytes eof) :
    ∀ o ∈ completed bytes t, o.Full := by
  unfold completed
  cases hk : t.kind with
  | text =>
    have hp := h.text hk
    intro o ho
    rw [List.mem_singleton.1 ho]
    apply List.ne_nil_of_length_pos
    rw [List.length_take, List.length_drop]
    omega
  | part => simp
  | _ => simp [Observed.Full]

theorem completed_all_items (bytes : List UInt8) (tokens : List Token) :
    (tokens.flatMap (completed bytes)).flatMap Observed.items = tokens.flatMap (observe bytes) := by
  rw [List.flatMap_assoc]
  exact congrArg (tokens.flatMap ·) (funext (completed_items bytes))

/-- The joined tokens, from the items alone. -/
def group : List Item → List Observed
  | [] => []
  | .text byte :: rest =>
    match group rest with
    | .text more :: rest => .text (byte :: more) :: rest
    | rest => .text [byte] :: rest
  | .token body :: rest => .sequence body :: group rest

theorem group_text (bytes : List UInt8) (hb : bytes ≠ []) (items : List Item) :
    group (bytes.map .text ++ items) =
      match group items with
      | .text more :: rest => .text (bytes ++ more) :: rest
      | rest => .text bytes :: rest := by
  induction bytes with
  | nil => exact absurd rfl hb
  | cons byte bytes ih =>
    cases bytes with
    | nil => simp [group]
    | cons b bs =>
      rw [List.map_cons, List.cons_append, group, ih (List.cons_ne_nil _ _)]
      cases hg : group items with
      | nil => rfl
      | cons o rest => cases o <;> rfl

theorem joinText_eq_group (os : List Observed) (h : ∀ o ∈ os, o.Full) :
    joinText os = group (os.flatMap Observed.items) := by
  induction os with
  | nil => rfl
  | cons o rest ih =>
    have hr := ih fun o ho => h o (List.mem_cons_of_mem _ ho)
    cases o with
    | sequence body => simp [joinText, group, Observed.items, hr]
    | text bytes =>
      rw [List.flatMap_cons, Observed.items, group_text bytes (h _ List.mem_cons_self), ← hr]
      rfl

/-! ## Chunked runs of the machine -/

/-- What a consumer sees of a whole stream that arrives in these chunks. -/
def itemsOf (chunks : List (List UInt8)) : List Item :=
  let r := runChunks Core.step Core.boundary Core.init chunks
  r.2 ++ r.1.atEnd

theorem scanChunked_cons {sc sc' : Scanner} {chunk : List UInt8} {rest : List (List UInt8)}
    {tokens : List Token}
    (h : drain (chunk.length + 2) sc chunk (if rest.isEmpty then .final else .more) =
      some (tokens, sc')) :
    scanChunked sc (chunk :: rest) =
      (scanChunked sc' rest).map (tokens.flatMap (completed chunk) ++ ·) := by
  rw [scanChunked, h]

theorem scanChunked_spec (chunks : List (List UInt8)) (hc : chunks ≠ []) (sc : Scanner)
    (hp : sc.pos = 0) (hd : sc.bufferDone = false) :
    ∃ os, scanChunked sc chunks = some os ∧ (∀ o ∈ os, o.Full) ∧
      os.flatMap Observed.items =
        (runChunks Core.step Core.boundary sc.core chunks).2 ++
          (runChunks Core.step Core.boundary sc.core chunks).1.atEnd := by
  induction chunks generalizing sc with
  | nil => exact absurd rfl hc
  | cons chunk rest ih =>
    have hready : sc.Ready chunk := ⟨hd, by omega, fun _ => hp⟩
    obtain ⟨tokens, sc', hdrain, hp', hd', hplaced, hfeed⟩ :=
      drain_spec (chunk.length + 2) (if rest.isEmpty then .final else .more) hready (by omega)
    have hfull : ∀ o ∈ tokens.flatMap (completed chunk), o.Full := by
      intro o ho
      obtain ⟨t, ht, ho⟩ := List.mem_flatMap.1 ho
      exact completed_full (hplaced t ht) o ho
    rw [hp, List.drop_zero] at hfeed
    cases rest with
    | nil =>
      refine ⟨tokens.flatMap (completed chunk), ?_, hfull, ?_⟩
      · rw [scanChunked_cons hdrain, scanChunked, Option.map_some, List.append_nil]
      · have hitems : (sc.core.feed chunk .final).2 = tokens.flatMap (observe chunk) :=
          congrArg Prod.snd hfeed
        rw [completed_all_items, ← hitems]
        simp [Core.feed, Core.run]
    | cons next rest =>
      obtain ⟨os, hos, hofull, hitems⟩ := ih (List.cons_ne_nil _ _) sc' hp' hd'
      have hrun : sc.core.run chunk = (sc'.core, tokens.flatMap (observe chunk)) := hfeed
      refine ⟨tokens.flatMap (completed chunk) ++ os, ?_, ?_, ?_⟩
      · rw [scanChunked_cons hdrain, hos, Option.map_some]
      · exact fun o ho => (List.mem_append.1 ho).elim (hfull o) (hofull o)
      · have hstate : (run Core.step sc.core chunk).1.boundary = sc'.core := congrArg Prod.fst hrun
        have hwrote : (run Core.step sc.core chunk).2 = tokens.flatMap (observe chunk) :=
          congrArg Prod.snd hrun
        have hsplit : runChunks Core.step Core.boundary sc.core (chunk :: next :: rest) =
            ((runChunks Core.step Core.boundary sc'.core (next :: rest)).1,
              tokens.flatMap (observe chunk) ++
                (runChunks Core.step Core.boundary sc'.core (next :: rest)).2) := by
          rw [runChunks_cons, hstate, hwrote]
        rw [hsplit, List.flatMap_append, completed_all_items, hitems, List.append_assoc]

/-- The completed tokens of a stream are those of the machine, however the stream is cut. -/
theorem tokensOf_eq (chunks : List (List UInt8)) :
    tokensOf chunks = some (group (itemsOf chunks)) := by
  by_cases hc : chunks = []
  · subst hc
    rfl
  · obtain ⟨os, hos, hfull, hitems⟩ := scanChunked_spec chunks hc Scanner.init rfl rfl
    rw [tokensOf, hos, Option.map_some, joinText_eq_group os hfull, hitems]
    rfl

/-- Every item stands in the joined tokens. -/
theorem group_items (items : List Item) : (group items).flatMap Observed.items = items := by
  induction items with
  | nil => rfl
  | cons item rest ih =>
    cases item with
    | token body => simp [group, Observed.items, ih]
    | text byte =>
      cases hg : group rest with
      | nil =>
        rw [hg] at ih
        simp [group, Observed.items, ← ih]
      | cons o more =>
        rw [hg] at ih
        cases o <;> simpa [group, hg, Observed.items] using ih

theorem tokensOf_eq_iff (chunks chunks' : List (List UInt8)) :
    tokensOf chunks = tokensOf chunks' ↔ itemsOf chunks = itemsOf chunks' := by
  rw [tokensOf_eq, tokensOf_eq, Option.some_inj]
  refine ⟨fun h => ?_, congrArg group⟩
  rw [← group_items (itemsOf chunks), h, group_items]

/-! ## Places and machines -/

/-- The accumulators never decide where the grammar goes. -/
theorem dispatch_next (state : State) (seq : Sequence) (byte : UInt8) :
    (dispatch state seq byte).next = nextState state byte := by
  cases state <;>
    simp only [nextState, dispatch, onGround, onEscape, onEscapeIntermediate, onCsiParam,
      onCsiIntermediate, onCsiIgnore, onOscString, onOscEsc, onDcsParam, onDcsIntermediate,
      onDcsPassthrough, onDcsEsc, onDcsIgnore, onApcString, onApcEsc] <;>
    split_ifs <;> rfl

theorem after_state {c : Core} {o : Outcome} (h : o.Fits c.state) : (c.after o).1.state = o.next := by
  cases o with
  | advance state seq => rfl
  | report seq kind finalByte => rfl
  | control seq finalByte => exact h

@[simp] theorem after_utf8Expect (c : Core) (o : Outcome) :
    (c.after o).1.utf8Expect = c.utf8Expect := by
  cases o <;> rfl

@[simp] theorem after_inRun (c : Core) (o : Outcome) : (c.after o).1.inRun = c.inRun := by
  cases o <;> rfl

theorem after_seq {c c' : Core} (o : Outcome) : (c.after o).1.seq = (c'.after o).1.seq := by
  cases o <;> rfl

theorem after_items {c c' : Core} (o : Outcome) : (c.after o).2 = (c'.after o).2 := by
  cases o <;> rfl

/-- A machine at a place: where the grammar is, and an expectation between what is owed there and
what no control can take back. -/
structure Core.At (c : Core) (p : Place) : Prop where
  state : c.state = p.state
  owed_le : p.owed ≤ c.utf8Expect
  le_lag : c.utf8Expect ≤ p.lag

theorem isC1_of_stops {byte : UInt8} {e : Nat} (hm : midCharacter e byte = true)
    (hs : stopsText byte = true) : isC1 byte = true := by
  have hb := ((midCharacter_iff e byte).1 hm).2
  simp only [stopsText, isC1, isTextControl, kEsc, Bool.and_eq_true, Bool.or_eq_true, beq_iff_eq,
    decide_eq_true_eq, UInt8.le_iff_toNat_le, UInt8.lt_iff_toNat_lt, ← UInt8.toNat_inj] at hs hb ⊢
  grind

theorem leadExpect_continuation {byte : UInt8} {e : Nat} (hm : midCharacter e byte = true) :
    leadExpect byte = 0 := by
  have hb := ((midCharacter_iff e byte).1 hm).2
  simp only [leadExpect, UInt8.le_iff_toNat_le] at hb ⊢
  grind

theorem midCharacter_mono {e e' : Nat} {byte : UInt8} (hle : e ≤ e')
    (hm : midCharacter e byte = true) : midCharacter e' byte = true := by
  rw [midCharacter_iff] at hm ⊢
  exact ⟨Nat.lt_of_lt_of_le hm.1 hle, hm.2⟩

theorem nextExpect_mono {e e' : Nat} (hle : e ≤ e') (byte : UInt8) :
    nextExpect e byte ≤ nextExpect e' byte := by
  unfold nextExpect
  by_cases hm : midCharacter e byte = true
  · rw [if_pos hm, if_pos (midCharacter_mono hle hm)]
    exact Nat.sub_le_sub_right hle 1
  · rw [if_neg hm]
    split_ifs with hm'
    · simp [leadExpect_continuation hm']
    · exact Nat.le_refl _

/-- A byte of text does the same to every machine at a place. -/
theorem step_isText {c : Core} {p : Place} (h : c.At p) {byte : UInt8} (ht : p.isText byte = true) :
    c.step byte =
      ({ c with utf8Expect := nextExpect c.utf8Expect byte, inRun := true }, [.text byte]) := by
  have ⟨hg, hb⟩ : p.state = .ground ∧ (midCharacter p.owed byte = true ∨ stopsText byte = false) := by
    simpa [Place.isText] using ht
  have hgc : c.state = .ground := h.state.trans hg
  unfold nextExpect
  by_cases hm : midCharacter c.utf8Expect byte = true
  · rw [step_text c hgc hm, if_pos hm]
  · have hs : stopsText byte = false := hb.resolve_left fun ho => hm (midCharacter_mono h.owed_le ho)
    rw [Bool.not_eq_true] at hm
    rw [step_lead c hgc hm hs, if_neg (by simp [hm])]

/-- What a byte that is no text does to the expectation and the text loop. -/
def Core.stop (c : Core) : Core :=
  if c.state = .ground then
    { c with utf8Expect := if c.inRun then 0 else c.utf8Expect, inRun := false }
  else c

@[simp] theorem stop_state (c : Core) : c.stop.state = c.state := by
  unfold Core.stop
  split_ifs <;> rfl

theorem stop_of_not_ground {c : Core} (h : c.state ≠ .ground) : c.stop = c := if_neg h

theorem stop_le (c : Core) : c.stop.utf8Expect ≤ c.utf8Expect := by
  unfold Core.stop
  split_ifs <;> simp

/-- A byte that is no text does the same to every machine at a place, unless it tears. -/
theorem step_not_isText {c : Core} {p : Place} (h : c.At p) {byte : UInt8}
    (ht : p.isText byte = false) (hn : p.tears byte = false) :
    c.step byte = c.stop.after (dispatch p.state c.seq byte) := by
  by_cases hg : p.state = .ground
  · have hgc : c.state = .ground := h.state.trans hg
    have ⟨hm, hs⟩ : midCharacter p.owed byte = false ∧ stopsText byte = true := by
      simpa [Place.isText, hg] using ht
    have hmc : midCharacter c.utf8Expect byte = false := by
      rw [Bool.eq_false_iff]
      intro hmc
      have hml := midCharacter_mono h.le_lag hmc
      have hc1 := isC1_of_stops hmc hs
      have hlag : 0 < p.lag := ((midCharacter_iff _ _).1 hml).1
      have howed : p.owed = 0 := by
        by_contra ho
        have := (midCharacter_iff p.owed byte).2
          ⟨Nat.pos_of_ne_zero ho, ((midCharacter_iff _ _).1 hml).2⟩
        simp [hm] at this
      simp [Place.tears, hg, howed, hlag, hc1] at hn
    rw [step_stop c hgc hmc hs, Core.stop, if_pos hgc, hg]
  · have hgc : c.state ≠ .ground := h.state ▸ hg
    rw [step_sequence hgc, Core.stop, if_neg hgc, h.state]

theorem next_isText {p : Place} {byte : UInt8} (ht : p.isText byte = true) :
    p.next byte = { p with owed := nextExpect p.owed byte, lag := nextExpect p.lag byte } := by
  rw [Place.next, if_pos ht]

theorem next_not_isText {p : Place} {byte : UInt8} (ht : p.isText byte = false) :
    p.next byte = ⟨nextState p.state byte, if p.state = .ground then 0 else p.owed, p.lag⟩ := by
  rw [Place.next, ht]
  rfl

/-- Short of a tear, a machine moves with its place. -/
theorem step_at {c : Core} {p : Place} (h : c.At p) {byte : UInt8} (hn : p.tears byte = false) :
    (c.step byte).1.At (p.next byte) := by
  cases ht : p.isText byte with
  | true =>
    rw [step_isText h ht, next_isText ht]
    exact ⟨h.state, nextExpect_mono h.owed_le byte, nextExpect_mono h.le_lag byte⟩
  | false =>
    rw [step_not_isText h ht hn, next_not_isText ht]
    have hstop : c.stop.state = p.state := (stop_state c).trans h.state
    refine ⟨?_, ?_, ?_⟩
    · rw [after_state (hstop ▸ dispatch_fits _ _ _), dispatch_next]
    · rw [after_utf8Expect]
      split_ifs with hg
      · exact Nat.zero_le _
      · rw [stop_of_not_ground (h.state ▸ hg)]
        exact h.owed_le
    · rw [after_utf8Expect]
      exact Nat.le_trans (stop_le c) h.le_lag

/-- Two machines at one place, with the same sequence in flight. -/
structure Alike (p : Place) (c d : Core) : Prop where
  left : c.At p
  right : d.At p
  seq : c.seq = d.seq

theorem step_alike {p : Place} {c d : Core} (h : Alike p c d) {byte : UInt8}
    (hn : p.tears byte = false) :
    (c.step byte).2 = (d.step byte).2 ∧ Alike (p.next byte) (c.step byte).1 (d.step byte).1 := by
  have hc := step_at h.left hn
  have hd := step_at h.right hn
  cases ht : p.isText byte with
  | true =>
    rw [step_isText h.left ht] at hc ⊢
    rw [step_isText h.right ht] at hd ⊢
    exact ⟨rfl, hc, hd, h.seq⟩
  | false =>
    rw [step_not_isText h.left ht hn, h.seq] at hc ⊢
    rw [step_not_isText h.right ht hn] at hd ⊢
    exact ⟨after_items _, hc, hd, after_seq _⟩

/-! ## Streams that are not torn -/

/-- Alike at a place from which the rest of the stream is not torn. -/
def Untorn (rest : List UInt8) (c d : Core) : Prop :=
  ∃ p, Alike p c d ∧ tornFrom p rest = false

theorem untorn_step (byte : UInt8) (rest : List UInt8) (c d : Core) (h : Untorn (byte :: rest) c d) :
    (c.step byte).2 = (d.step byte).2 ∧ Untorn rest (c.step byte).1 (d.step byte).1 := by
  obtain ⟨p, halike, htorn⟩ := h
  have ⟨hn, hrest⟩ : p.tears byte = false ∧ tornFrom (p.next byte) rest = false := by
    simpa [tornFrom] using htorn
  have ⟨hitems, hnext⟩ := step_alike halike hn
  exact ⟨hitems, p.next byte, hnext, hrest⟩

theorem untorn_boundary (rest : List UInt8) (c d : Core) (h : Untorn rest c d) :
    Untorn rest c.boundary d := by
  obtain ⟨p, ⟨hc, hd, hs⟩, htorn⟩ := h
  exact ⟨p, ⟨⟨hc.state, hc.owed_le, hc.le_lag⟩, hd, hs⟩, htorn⟩

theorem atEnd_alike {p : Place} {c d : Core} (h : Alike p c d) : c.atEnd = d.atEnd := by
  rw [Core.atEnd, Core.atEnd, h.left.state, h.right.state, h.seq]

theorem init_at : Core.init.At Place.init := ⟨rfl, Nat.le_refl _, Nat.le_refl _⟩

/-- A stream that is not torn shows the same items however it is cut. -/
theorem itemsOf_untorn (chunks : List (List UInt8)) (h : torn chunks.flatten = false) :
    itemsOf chunks = itemsOf [chunks.flatten] := by
  have hinit : Untorn chunks.flatten Core.init Core.init :=
    ⟨Place.init, ⟨init_at, init_at, rfl⟩, h⟩
  obtain ⟨hitems, p, halike, -⟩ :=
    runChunks_simulates untorn_step untorn_boundary chunks Core.init Core.init hinit
  have hend := atEnd_alike halike
  simp only [itemsOf, hitems, hend, runChunks_cons, runChunks_nil, List.append_nil]
  rfl

/-! ## Streams that are -/

/-- Inside a sequence no byte is text: the next item is a token. -/
theorem run_sequence_head (bytes : List UInt8) (c : Core) (h : c.state ≠ .ground) :
    ∃ body rest, (run Core.step c bytes).2 ++ (run Core.step c bytes).1.atEnd = .token body :: rest := by
  induction bytes generalizing c with
  | nil => exact ⟨emit c.seq .malformed 0 0 0, [], by simp [Core.atEnd, h]⟩
  | cons byte bytes ih =>
    have hfits := dispatch_fits c.state c.seq byte
    rw [run_cons, step_sequence h]
    cases hd : dispatch c.state c.seq byte with
    | advance state seq =>
      rw [hd] at hfits
      exact ih { c with state := state, seq := seq } hfits
    | report seq kind finalByte => exact ⟨_, _, rfl⟩
    | control seq finalByte =>
      rw [hd] at hfits
      exact absurd hfits h

/-- The machine of a stream in one piece owes what its place owes. -/
structure Core.Exact (c : Core) (p : Place) : Prop where
  expect : c.utf8Expect = p.owed
  idle : c.inRun = false → p.owed = 0

/-- The machine of a stream cut at every byte never takes an expectation back. -/
structure Core.Lagging (c : Core) (p : Place) : Prop where
  expect : c.utf8Expect = p.lag
  inRun : c.inRun = false

theorem step_exact {c : Core} {p : Place} (h : c.At p) (he : c.Exact p) {byte : UInt8}
    (hn : p.tears byte = false) : (c.step byte).1.Exact (p.next byte) := by
  cases ht : p.isText byte with
  | true =>
    rw [step_isText h ht, next_isText ht]
    exact ⟨by simp only [he.expect], nofun⟩
  | false =>
    rw [step_not_isText h ht hn, next_not_isText ht]
    by_cases hg : p.state = .ground
    · refine ⟨?_, fun _ => by simp [hg]⟩
      rw [after_utf8Expect, Core.stop, if_pos (h.state.trans hg), if_pos hg]
      cases hr : c.inRun with
      | true => rfl
      | false => exact he.expect.trans (he.idle hr)
    · rw [stop_of_not_ground (h.state ▸ hg)]
      refine ⟨?_, ?_⟩
      · rw [after_utf8Expect, if_neg hg]
        exact he.expect
      · rw [after_inRun, if_neg hg]
        exact he.idle

theorem step_lagging {c : Core} {p : Place} (h : c.At p) (hl : c.Lagging p) {byte : UInt8}
    (hn : p.tears byte = false) : (c.step byte).1.boundary.Lagging (p.next byte) := by
  refine ⟨?_, rfl⟩
  cases ht : p.isText byte with
  | true =>
    rw [step_isText h ht, next_isText ht]
    simp only [Core.boundary, hl.expect]
  | false =>
    rw [step_not_isText h ht hn, next_not_isText ht]
    have hstop : c.stop.utf8Expect = c.utf8Expect := by
      unfold Core.stop
      split_ifs with hg hr
      · simp [hl.inRun] at hr
      · rfl
      · rfl
    simp only [Core.boundary, after_utf8Expect, hstop, hl.expect]

/-- At a tear the machine cut at every byte reads text, and the other one a control. -/
theorem step_tears {p : Place} {c d : Core} (h : Alike p c d) (hl : c.Lagging p) (he : d.Exact p)
    {byte : UInt8} (ht : p.tears byte = true) (rest : List UInt8) :
    (c.step byte).2 = [.text byte] ∧
      ∃ body more, (run Core.step d (byte :: rest)).2 ++ (run Core.step d (byte :: rest)).1.atEnd =
        .token body :: more := by
  have ⟨⟨⟨hg, howed⟩, hlag⟩, hc1⟩ :
      ((p.state = .ground ∧ p.owed = 0) ∧ 0 < p.lag) ∧ isC1 byte = true := by
    simpa [Place.tears] using ht
  have hb : 0x80 ≤ byte ∧ byte ≤ 0x9F := by simpa [isC1] using hc1
  have hmc : midCharacter c.utf8Expect byte = true :=
    (midCharacter_iff _ _).2 ⟨hl.expect ▸ hlag, hb.1, UInt8.le_trans hb.2 (by decide)⟩
  have hmd : midCharacter d.utf8Expect byte = false := by
    rw [he.expect, howed]
    exact midCharacter_zero byte
  have hs : stopsText byte = true := by simp [stopsText, hc1]
  have hgd : d.state = .ground := h.right.state.trans hg
  have hfits := dispatch_fits .ground d.seq byte
  refine ⟨congrArg Prod.snd (step_text c (h.left.state.trans hg) hmc), ?_⟩
  rw [run_cons, step_stop d hgd hmd hs]
  cases hd : dispatch .ground d.seq byte with
  | advance state seq =>
    rw [hd] at hfits
    exact run_sequence_head rest (Core.mk state _ _ seq) hfits
  | report seq kind finalByte =>
    rw [hd] at hfits
    exact absurd rfl hfits.1
  | control seq finalByte => exact ⟨_, _, rfl⟩

/-- A torn stream shows one thing in one piece, and another cut at every byte. -/
theorem torn_differs (stream : List UInt8) (p : Place) (c d : Core) (h : Alike p c d)
    (hl : c.Lagging p) (he : d.Exact p) (ht : tornFrom p stream = true) :
    (runChunks Core.step Core.boundary c (stream.map ([·]))).2 ++
        (runChunks Core.step Core.boundary c (stream.map ([·]))).1.atEnd ≠
      (run Core.step d stream).2 ++ (run Core.step d stream).1.atEnd := by
  induction stream generalizing p c d with
  | nil => simp [tornFrom] at ht
  | cons byte rest ih =>
    cases hn : p.tears byte with
    | true =>
      have ⟨htext, body, more, htoken⟩ := step_tears h hl he hn rest
      rw [htoken]
      simp [htext]
    | false =>
      have ⟨hitems, hnext⟩ := step_alike h hn
      have hrest : tornFrom (p.next byte) rest = true := by simpa [tornFrom, hn] using ht
      have hdiff := ih (p.next byte) (c.step byte).1.boundary (d.step byte).1
        ⟨⟨hnext.left.state, hnext.left.owed_le, hnext.left.le_lag⟩, hnext.right, hnext.seq⟩
        (step_lagging h.left hl hn) (step_exact h.right he hn) hrest
      simpa [hitems] using hdiff

theorem itemsOf_torn (stream : List UInt8) (h : torn stream = true) :
    itemsOf (stream.map ([·])) ≠ itemsOf [stream] := by
  have hdiff := torn_differs stream Place.init Core.init Core.init ⟨init_at, init_at, rfl⟩
    ⟨rfl, rfl⟩ ⟨rfl, fun _ => rfl⟩ h
  have hend (c : Core) : c.boundary.atEnd = c.atEnd := rfl
  simpa [itemsOf, hend] using hdiff

end SupraHarness.Ansi
