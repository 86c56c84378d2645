import SupraHarness.Blackboard.Answers
import SupraHarness.Lib.Scan
import SupraHarness.Types.Hash
import SupraHarness.Types.Id

/-!
# Findings

A finding is one problem that a gate reported. The gates read findings off the diagnostic lines of their
commands, with a location where the line has one. The evidence reference names the gate and the place. A
text past the largest allocation aborts the process, which is `none`.
-/
namespace SupraHarness.Introspector

open SupraHarness.Types Str Scan

inductive Kind where
  /-- A static analysis tool reported it. -/
  | static
  /-- A test or execution reported it. -/
  | dynamic
  /-- Peers disagreed on the same question. -/
  | crossAgent
  deriving DecidableEq, Repr

/-- One detected problem. -/
structure Finding where
  id : Id .finding
  kind : Kind
  source : Str
  summary : Str
  path : Option Str
  line : Option UInt32
  deriving DecidableEq, Repr

/-- An allocated text. -/
def allocated (text : String) : Option Str :=
  if fits : text.utf8ByteSize < 2 ^ 63 then some ⟨text, fits⟩ else none

namespace Finding

def evidenceText (finding : Finding) : String :=
  let place :=
    match finding.path, finding.line with
    | some path, some line => s!"{path.text}:{line}"
    | _, _ => finding.source.text
  s!"{finding.source.text}#{place}"

/-- The evidence reference for a blackboard verdict. -/
def evidenceRef (finding : Finding) : Option Str := allocated finding.evidenceText

end Finding

/-! ## The gates -/

def trimStart (text : List Char) : List Char := text.dropWhile isWhitespace

def trimEnd (text : List Char) : List Char := (text.reverse.dropWhile isWhitespace).reverse

/-- `split(':')` -/
def splitColon : List Char → List (List Char)
  | [] => [[]]
  | c :: text =>
    if c = ':' then [] :: splitColon text
    else
      match splitColon text with
      | [] => [[c]]
      | part :: parts => (c :: part) :: parts

/-- `match_indices`: where the pattern stands, without overlaps; `skip` characters belong to the last match. -/
def matchIndices (pattern : List Char) : Nat → Nat → List Char → List Nat
  | _, _, [] => []
  | skip + 1, index, _ :: text => matchIndices pattern skip (index + 1) text
  | 0, index, c :: text =>
    if pattern.isPrefixOf (c :: text) then index :: matchIndices pattern (pattern.length - 1) (index + 1) text
    else matchIndices pattern 0 (index + 1) text

/-- `parse::<u32>`: an optional plus and decimal digits. -/
def parseU32 (text : List Char) : Option UInt32 :=
  let digits := if text.head? = some '+' then text.tail else text
  if digits ≠ [] ∧ digits.all Char.isDigit then
    let value := digits.foldl (fun n c => n * 10 + (c.toNat - '0'.toNat)) 0
    if value < 2 ^ 32 then some (UInt32.ofNat value) else none
  else none

/-- A finding at a place; a place without a path makes none. -/
def located (id : Id .finding) (kind : Kind) (source : Str) (place : List Char) : Option (Option Finding) :=
  let parts := splitColon place
  let path := trim (parts.headD [])
  if path = [] then some none
  else do
    let summary ← allocated s!"{source.text} diagnostic at {String.ofList path}"
    let path ← allocated (String.ofList path)
    some (some ⟨id, kind, source, summary, some path, parts[1]?.bind parseU32⟩)

/-- Where the level of a short diagnostic stands, at the last such place. -/
def shortAt (trimmed : List Char) : Option Nat :=
  ((matchIndices ": warning: ".toList 0 0 trimmed ++ matchIndices ": error".toList 0 0 trimmed).filter fun index =>
    [": warning: ", ": error:", ": error["].any fun level => level.toList.isPrefixOf (trimmed.drop index)).max?

/-- Parse a diagnostic line into a finding. -/
def parseCargoDiagnostic (id : Id .finding) (kind : Kind) (source : Str) (line : List Char) :
    Option (Option Finding) :=
  let trimmed := trimStart line
  match stripPrefix "--> ".toList trimmed with
  | some rest => located id kind source rest
  | none =>
    match shortAt trimmed with
    | some index => located id kind source (trimmed.take index)
    | none =>
      match stripPrefix "error".toList trimmed with
      | some rest =>
        if rest.head?.any (· ∈ ['[', ':', ' ']) ∧ (find "no test target".toList rest).isNone then do
          let summary ← allocated s!"{source.text}: error{String.ofList (trimEnd rest)}"
          some (some ⟨id, kind, source, summary, none, none⟩)
        else some none
      | none => some none

end SupraHarness.Introspector

/-!
## Findings on the blackboard

A finding is published as a claim under the budget of claim bodies, and voted on with verdicts under the
budgets of reasons and evidence references. A vote of a member who has not voted goes through exactly when
the finding's summary and its evidence reference fit in a verdict.
-/
namespace SupraHarness.Introspector

open SupraHarness.Types SupraHarness.Store SupraHarness.Board SupraHarness.Slots
open Std (ExtTreeMap)

/-- The first agent that stands in the list before. -/
def firstDuplicate (seen : List AgentId) : List AgentId → Option AgentId
  | [] => none
  | agent :: agents => if agent ∈ seen then some agent else firstDuplicate (agent :: seen) agents

/-- Publish a finding-backed claim to the blackboard. -/
def appendFinding (board : Blackboard) (faults : Faults) (generated : ClaimId) (now : Nat) (turn : TurnId)
    (proposer : AgentId) (validators : List AgentId) (finding : Finding) :
    Blackboard × Except BlackboardError ClaimId :=
  match firstDuplicate [] validators with
  | some agent => (board, .error (.store (.malformed s!"duplicate validator {agent.text}")))
  | none =>
    if proposer ∈ validators then (board, .error (.notAProposer proposer generated))
    else board.publish faults generated now turn proposer validators finding.summary

def verdictErrorText : VerdictError → String
  | .reasonTooLong bytes => s!"a verdict reason may hold {maxReasonBytes} bytes, found {bytes}"
  | .evidenceRefTooLong bytes => s!"an evidence reference may hold {maxEvidenceBytes} bytes, found {bytes}"

/-- Record one validator's verdict on a finding claim, with the finding's evidence reference. -/
def voteFinding (board : Blackboard) (faults : Faults) (claim : ClaimId) (voter : AgentId) (vote : Vote)
    (finding : Finding) : Option (Blackboard × Except BlackboardError Blackboard.Outcome) := do
  let reference ← finding.evidenceRef
  match Verdict.new vote .high finding.summary (some reference) with
  | .error error => some (board, .error (.store (.malformed (verdictErrorText error))))
  | .ok verdict => some (board.vote faults claim voter verdict)

/-- What a verdict can hold of the finding. -/
def Fits (finding : Finding) : Prop :=
  finding.summary.len ≤ maxReasonBytes ∧ finding.evidenceText.utf8ByteSize ≤ maxEvidenceBytes

instance (finding : Finding) : Decidable (Fits finding) := inferInstanceAs (Decidable (_ ∧ _))

/-- The claim is the one that was published: its proposer, and its validators as its roster. -/
def Posted (proposer : AgentId) (validators : List AgentId) (state : ClaimState) : Prop :=
  state.proposer = proposer ∧ ∀ agent, (state.validators[agent]?).isSome ↔ agent ∈ validators

section Run

variable {board board' : Blackboard} {claim : ClaimId} {proposer : AgentId} {validators : List AgentId}

/-- A claim stays the one that was published, whatever is called. -/
theorem posted_step {op : Op} (coherent : Coherent board)
    (posted : ∃ state, board.claims[claim]? = some state ∧ Posted proposer validators state) :
    ∃ state, (step board op).1.claims[claim]? = some state ∧ Posted proposer validators state := by
  obtain ⟨state, held, own, roster⟩ := posted
  rcases step_cases coherent (@Prod.mk.eta _ _ (step board op)).symm with
    ⟨-, same⟩ | ⟨-, same⟩ | ⟨-, other, new, members, published, -⟩ | ⟨-, other, voter, vote, before, after, voted⟩
  · rw [same]
    exact ⟨state, held, own, roster⟩
  · rw [same, getElem?_reread, held]
    exact ⟨state.reread, rfl, own, roster⟩
  · have apart : claim ≠ other := by
      rintro rfl
      exact published.fresh (coherent.known claim state held)
    rw [published.memory, getElem?_insert_claim, if_neg apart]
    exact ⟨state, held, own, roster⟩
  · rw [voted.memory, getElem?_insert_claim]
    by_cases same : claim = other
    · rw [if_pos same]
      have here := voted.held
      rw [← same, held] at here
      cases here
      refine ⟨after, rfl, ?_⟩
      rw [voted.next]
      refine ⟨own, fun agent => ?_⟩
      rw [← roster agent]
      dsimp only
      rw [getElem?_insert]
      by_cases eq : agent = voter
      · rw [if_pos eq, eq, voted.slot]
        rfl
      · rw [if_neg eq]
    · rw [if_neg same]
      exact ⟨state, held, own, roster⟩

theorem posted_run (more : List Op) (coherent : Coherent board)
    (posted : ∃ state, board.claims[claim]? = some state ∧ Posted proposer validators state) :
    Coherent (more.foldl (fun board op => (step board op).1) board) ∧
      ∃ state, (more.foldl (fun board op => (step board op).1) board).claims[claim]? = some state ∧
        Posted proposer validators state := by
  induction more generalizing board with
  | nil => exact ⟨coherent, posted⟩
  | cons op more ih => exact ih (coherent_step coherent Prod.mk.eta.symm) (posted_step coherent posted)

theorem append_posted {faults : Faults} {generated : ClaimId} {now : Nat} {turn : TurnId} {finding : Finding}
    (coherent : Coherent board)
    (h : appendFinding board faults generated now turn proposer validators finding = (board', .ok claim)) :
    Coherent board' ∧ ∃ state, board'.claims[claim]? = some state ∧ Posted proposer validators state := by
  unfold appendFinding at h
  split at h
  · cases h
  · split at h
    · cases h
    · rcases publish_cases h with ⟨error, answer, -⟩ | ⟨answer, -, published⟩
      · cases answer
      · cases answer
        let state : ClaimState := ⟨turn, proposer, finding.summary, validators.length + 1,
          ordinaryTally (validators.length + 1), .open, roster validators⟩
        refine ⟨coherent_published coherent published, state, ?_, rfl, fun agent => ?_⟩
        · rw [published.memory, getElem?_insert_claim, if_pos rfl]
        · change ((roster validators)[agent]?).isSome = true ↔ _
          rw [roster, getElem?_empties]
          by_cases mem : agent ∈ validators <;> simp [mem]

end Run

theorem verdict_new {vote : Vote} {confidence : Confidence} {reason reference : Str} :
    (∃ verdict, Verdict.new vote confidence reason (some reference) = .ok verdict) ↔
      reason.len ≤ maxReasonBytes ∧ reference.len ≤ maxEvidenceBytes := by
  unfold Verdict.new
  by_cases short : reason.len ≤ maxReasonBytes
  · rw [dif_pos short]
    dsimp only
    by_cases fits : reference.len ≤ maxEvidenceBytes
    · rw [dif_pos fits]
      exact iff_of_true ⟨_, rfl⟩ ⟨short, fits⟩
    · rw [dif_neg fits]
      exact iff_of_false nofun fun both => fits both.2
  · rw [dif_neg short]
    exact iff_of_false nofun fun both => short both.1

theorem evidenceRef_eq_some {finding : Finding} {reference : Str} :
    finding.evidenceRef = some reference ↔ reference.text = finding.evidenceText := by
  unfold Finding.evidenceRef allocated
  constructor
  · intro h
    split at h
    · cases h
      rfl
    · cases h
  · intro eq
    have fits := reference.fits
    rw [eq] at fits
    rw [dif_pos fits]
    exact congrArg some (Str.ext eq.symm)

/-- A vote that goes through has a verdict. -/
theorem fits_of_voted {board board' : Blackboard} {faults : Faults} {claim : ClaimId} {voter : AgentId} {vote : Vote}
    {finding : Finding} {outcome : Blackboard.Outcome}
    (voted : voteFinding board faults claim voter vote finding = some (board', .ok outcome)) : Fits finding := by
  obtain ⟨reference, made, voted⟩ := Option.bind_eq_some_iff.1 voted
  cases new : Verdict.new vote .high finding.summary (some reference) with
  | error error =>
    rw [new] at voted
    cases voted
  | ok verdict =>
    obtain ⟨summary, evidence⟩ := verdict_new.1 ⟨verdict, new⟩
    rw [Str.len, evidenceRef_eq_some.1 made] at evidence
    exact ⟨summary, evidence⟩

/-- A member who has not voted on an open claim that a finding was posted as can vote exactly when the
finding's summary and its evidence reference fit in a verdict. -/
theorem voteFinding_ok_iff (before more : List Op) {faults : Faults} {generated claim : ClaimId} {now : Nat}
    {turn : TurnId} {proposer voter : AgentId} {validators : List AgentId} {finding : Finding}
    {posted : Blackboard} {state : ClaimState}
    (appended : appendFinding (run before) faults generated now turn proposer validators finding =
      (posted, .ok claim))
    (held : (more.foldl (fun board op => (step board op).1) posted).claims[claim]? = some state)
    (isOpen : state.status = .open) (member : voter ∈ validators)
    (unvoted : ∀ cast : Vote, state.validators[voter]? ≠ some (some cast)) (vote : Vote) :
    (∃ board' outcome, voteFinding (more.foldl (fun board op => (step board op).1) posted) Faults.none claim voter
      vote finding = some (board', .ok outcome)) ↔ Fits finding := by
  obtain ⟨coherent, was⟩ := append_posted (coherent_run before) appended
  obtain ⟨coherent, found, here, own, roster⟩ := posted_run more coherent was
  rw [held] at here
  cases here
  have slot : state.validators[voter]? = some none := by
    obtain ⟨cast, eq⟩ := Option.isSome_iff_exists.1 ((roster voter).2 member)
    cases cast with
    | none => exact eq
    | some cast => exact absurd eq (unvoted cast)
  have apart : voter ≠ state.proposer := by
    rintro rfl
    unfold appendFinding at appended
    split at appended
    · cases appended
    · rw [if_pos (own ▸ member)] at appended
      cases appended
  generalize more.foldl (fun board op => (step board op).1) posted = board at held coherent ⊢
  constructor
  · rintro ⟨board', outcome, voted⟩
    exact fits_of_voted voted
  · rintro ⟨summary, evidence⟩
    have small : finding.evidenceText.utf8ByteSize < 2 ^ 63 :=
      lt_of_le_of_lt evidence (by decide)
    let reference : Str := ⟨finding.evidenceText, small⟩
    obtain ⟨verdict, new⟩ := (@verdict_new vote .high finding.summary reference).2 ⟨summary, evidence⟩
    have voted : ∃ board' outcome, board.vote Faults.none claim voter verdict = (board', .ok outcome) := by
      obtain ⟨tables, voted⟩ := @vote_succeeds board claim voter state verdict coherent held isOpen slot apart
      exact ⟨_, _, voted⟩
    obtain ⟨board', outcome, voted⟩ := voted
    refine ⟨board', outcome, ?_⟩
    rw [voteFinding, (@evidenceRef_eq_some finding reference).2 rfl]
    change (match Verdict.new vote .high finding.summary (some reference) with
      | .error error => _
      | .ok verdict => _) = _
    rw [new]
    exact congrArg some voted

/-! A finding that the static gate reads off a diagnostic line. -/

def clippy : Str := ⟨"clippy", by decide⟩

def board : List AgentId := [Id.fromU128 2, Id.fromU128 3]

/-- The finding of a diagnostic at a short path. -/
def shortFinding : Finding :=
  ⟨Id.fromU128 9, .static, clippy, ⟨"clippy diagnostic at src/main.rs", by decide⟩,
    some ⟨"src/main.rs", by decide⟩, some 12⟩

/-- The finding of a diagnostic in a file of this repository. -/
def longFinding : Finding :=
  ⟨Id.fromU128 9, .static, clippy,
    ⟨"clippy diagnostic at crates/supra_introspector/src/finding.rs", by decide⟩,
    some ⟨"crates/supra_introspector/src/finding.rs", by decide⟩, some 34⟩

theorem longFinding_parsed : parseCargoDiagnostic (Id.fromU128 9) .static clippy
    "crates/supra_introspector/src/finding.rs:34:5: warning: unused import".toList = some (some longFinding) := by
  decide

/-- The claim of a finding, among a proposer and two validators. -/
def postedBy (finding : Finding) : Blackboard × Except BlackboardError ClaimId :=
  appendFinding fresh Faults.none (Id.fromU128 7) 0 (Id.fromU128 5) (Id.fromU128 1) board finding

theorem shortFinding_voted : ∃ board' outcome,
    voteFinding (postedBy shortFinding).1 Faults.none (Id.fromU128 7) (Id.fromU128 2) .yes shortFinding =
      some (board', .ok outcome) := by
  have ok : (postedBy shortFinding).2.toOption = some (Id.fromU128 7) := by decide +kernel
  have appended : postedBy shortFinding = ((postedBy shortFinding).1, .ok (Id.fromU128 7)) := by
    cases answer : (postedBy shortFinding).2 with
    | error error =>
      rw [answer] at ok
      cases ok
    | ok claim =>
      rw [answer] at ok
      cases ok
      rw [← answer]
  have claim : (postedBy shortFinding).1.claims[(Id.fromU128 7 : ClaimId)]?.map (fun state =>
      (state.status, state.validators[(Id.fromU128 2 : AgentId)]?)) = some (.open, some none) := by
    decide +kernel
  obtain ⟨state, held, both⟩ := Option.map_eq_some_iff.1 claim
  obtain ⟨isOpen, slot⟩ := Prod.mk.inj both
  refine (voteFinding_ok_iff [] [] appended held isOpen (by decide) (fun cast eq => ?_) .yes).2 (by decide)
  rw [slot] at eq
  cases eq

/-- The finding is posted and its claim is open, and nobody can vote on it. -/
theorem longFinding_unvotable :
    parseCargoDiagnostic (Id.fromU128 9) .static clippy
        "crates/supra_introspector/src/finding.rs:34:5: warning: unused import".toList = some (some longFinding) ∧
      (postedBy longFinding).2.toOption = some (Id.fromU128 7) ∧
      (postedBy longFinding).1.claims[(Id.fromU128 7 : ClaimId)]?.map ClaimState.status = some .open ∧
      ∀ voter ∈ board, ∀ vote board' outcome,
        voteFinding (postedBy longFinding).1 Faults.none (Id.fromU128 7) voter vote longFinding ≠
          some (board', .ok outcome) := by
  refine ⟨longFinding_parsed, by decide +kernel, by decide +kernel, fun voter _ vote board' outcome voted => ?_⟩
  exact absurd (fits_of_voted voted) (by decide +kernel)

end SupraHarness.Introspector
