import SupraHarness.Types.Segment

/-!
# Rendering an evicted turn

A turn with a tool call keeps every block; any other turn loses its unsigned thinking. The blocks
that go are no tool traffic, so what is left has its tool traffic in one run if the turn had, and
is a segment of the same kind.
-/
namespace SupraHarness.Prompt

open SupraHarness.Types

/-- Whether a turn's body keeps its thinking blocks. -/
inductive ThinkingDisposition where
  | keep | drop
  deriving DecidableEq, Repr

def isToolUse : Block → Bool
  | .toolUse .. => true
  | _ => false

/-- `Block::Thinking { signature: None, .. }` -/
def isUnsignedThinking : Block → Bool
  | .thinking _ none => true
  | _ => false

def ThinkingDisposition.decide (blocks : Vec Block) : ThinkingDisposition :=
  if blocks.toList.any isToolUse then .keep else .drop

/-- The blocks that pass a test. -/
def filterVec (keep : Block → Bool) (blocks : Vec Block) : Vec Block :=
  ⟨blocks.toList.filter keep, Nat.lt_of_le_of_lt (List.length_filter_le _ _) blocks.fits⟩

def renderBody (blocks : Vec Block) : ThinkingDisposition → Vec Block
  | .keep => blocks
  | .drop => filterVec (fun block => !isUnsignedThinking block) blocks

/-- The body to commit for one live turn, and the disposition taken. -/
def planEviction {blake3 : List UInt8 → ContentHash} (segment : Sealed blake3 Segment) :
    Vec Block × ThinkingDisposition :=
  let disposition := ThinkingDisposition.decide segment.value.blocks
  (renderBody segment.value.blocks disposition, disposition)

variable {blake3 : List UInt8 → ContentHash}

/-! ## What is left is a segment -/

/-- Blocks that are no tool traffic may go: a run of tool traffic is at most joined to itself. -/
theorem interleavingFrom_filter {keep : Block → Bool} {blocks : List Block} {seenRun inRun inRun' : Bool}
    {index index' : Nat} (hkeep : ∀ block ∈ blocks, block.isToolTraffic = true → keep block = true)
    (hin : inRun = true → inRun' = true) (hseen : inRun' = true → seenRun = true)
    (h : interleavingFrom seenRun inRun index blocks = none) :
    interleavingFrom seenRun inRun' index' (blocks.filter keep) = none := by
  induction blocks generalizing seenRun inRun inRun' index index' with
  | nil => rfl
  | cons block blocks ih =>
    obtain ⟨hhead, htail⟩ := List.forall_mem_cons.mp hkeep
    rw [interleavingFrom] at h
    by_cases htool : block.isToolTraffic = true
    · rw [List.filter_cons_of_pos (hhead htool), interleavingFrom, if_pos htool]
      rw [if_pos htool] at h
      by_cases hrun : inRun = true
      · rw [if_pos hrun] at h
        rw [if_pos (hin hrun)]
        exact ih htail (fun _ => rfl) (fun _ => hseen (hin hrun)) h
      · rw [if_neg hrun] at h
        by_cases hsaw : seenRun = true
        · rw [if_pos hsaw] at h
          cases h
        · rw [if_neg hsaw] at h
          rw [if_neg fun hrun' => hsaw (hseen hrun'), if_neg hsaw]
          exact ih htail (fun _ => rfl) (fun _ => rfl) h
    · rw [if_neg htool] at h
      by_cases hkept : keep block = true
      · rw [List.filter_cons_of_pos hkept, interleavingFrom, if_neg htool]
        exact ih htail id (fun h => absurd h Bool.false_ne_true) h
      · rw [List.filter_cons_of_neg hkept]
        exact ih htail (fun h => absurd h Bool.false_ne_true) hseen h

theorem keeps_tool_traffic (block : Block) (h : block.isToolTraffic = true) : (!isUnsignedThinking block) = true := by
  cases block with
  | text text => rfl
  | thinking text signature => cases h
  | toolUse callId name input => rfl
  | toolResult callId content isError => rfl

theorem renderBody_sublist (blocks : Vec Block) (disposition : ThinkingDisposition) :
    (renderBody blocks disposition).toList.Sublist blocks.toList := by
  cases disposition with
  | keep => exact List.Sublist.refl _
  | drop => exact List.filter_sublist

/-- The constructor accepts the rendered body under the segment's own identity and kind. -/
theorem renderBody_accepted (segment : Segment) (disposition : ThinkingDisposition) :
    ∃ rendered, Segment.new segment.id segment.kind (renderBody segment.blocks disposition) = .ok rendered ∧
      rendered.kind = segment.kind ∧ rendered.blocks = renderBody segment.blocks disposition := by
  have hindex : segment.kind.isMemoryIndex = true → (renderBody segment.blocks disposition).toList = [] := by
    intro hkind
    have hsub := renderBody_sublist segment.blocks disposition
    rw [segment.indexEmpty hkind] at hsub
    exact List.sublist_nil.mp hsub
  have hconsecutive : firstInterleaving (renderBody segment.blocks disposition).toList = none := by
    cases disposition with
    | keep => exact segment.consecutive
    | drop =>
      apply interleavingFrom_filter _ id id segment.consecutive
      intro block _ htool
      exact keeps_tool_traffic block htool
  refine ⟨⟨segment.id, segment.kind, renderBody segment.blocks disposition, hindex, hconsecutive⟩, ?_, rfl, rfl⟩
  rw [Segment.new, dif_pos hindex]
  split
  · rfl
  · rename_i i hat
    rw [hconsecutive] at hat
    cases hat

/-! ## What is kept -/

/-- Everything but unsigned thinking is kept, in its order. -/
theorem renderBody_keeps (blocks : Vec Block) (disposition : ThinkingDisposition) :
    (renderBody blocks disposition).toList.filter (fun block => !isUnsignedThinking block) =
      blocks.toList.filter fun block => !isUnsignedThinking block := by
  cases disposition with
  | keep => rfl
  | drop =>
    rw [renderBody, filterVec, List.filter_filter]
    simp only [Bool.and_self]

theorem renderBody_idem (blocks : Vec Block) (disposition : ThinkingDisposition) :
    renderBody (renderBody blocks disposition) disposition = renderBody blocks disposition := by
  cases disposition with
  | keep => rfl
  | drop =>
    apply Vec.ext
    rw [renderBody]
    exact renderBody_keeps blocks .drop

/-- Rendering neither adds nor removes a tool call. -/
theorem decide_renderBody (blocks : Vec Block) (disposition : ThinkingDisposition) :
    ThinkingDisposition.decide (renderBody blocks disposition) = ThinkingDisposition.decide blocks := by
  have huse : ∀ block, isToolUse block = true → (!isUnsignedThinking block) = true := by
    intro block huse
    cases block with
    | toolUse callId name input => rfl
    | _ => cases huse
  have hany : (renderBody blocks disposition).toList.any isToolUse = blocks.toList.any isToolUse := by
    rw [Bool.eq_iff_iff, List.any_eq_true, List.any_eq_true]
    constructor
    · rintro ⟨block, hmem, hblock⟩
      exact ⟨block, (renderBody_sublist blocks disposition).mem hmem, hblock⟩
    · rintro ⟨block, hmem, hblock⟩
      have hkept : block ∈ (renderBody blocks disposition).toList.filter fun block => !isUnsignedThinking block := by
        rw [renderBody_keeps]
        exact List.mem_filter.mpr ⟨hmem, huse block hblock⟩
      exact ⟨block, List.mem_of_mem_filter hkept, hblock⟩
  rw [ThinkingDisposition.decide, ThinkingDisposition.decide, hany]

/-- What is rendered of a segment: its blocks without some unsigned thinking, a segment of the same kind, and
the same again when it is rendered again. The plan keeps all blocks when there is a tool call, and is the same
plan when the rendered segment is planned. -/
theorem planEviction_renders (segment : Sealed blake3 Segment) :
    (∀ disposition, let body := renderBody segment.value.blocks disposition
      body.toList.Sublist segment.value.blocks.toList ∧
        body.toList.filter (fun block => !isUnsignedThinking block) =
          segment.value.blocks.toList.filter (fun block => !isUnsignedThinking block) ∧
        renderBody body disposition = body ∧
        ∃ rendered, Segment.new segment.value.id segment.value.kind body = .ok rendered ∧
          rendered.kind = segment.value.kind ∧ rendered.blocks = body) ∧
      let plan := planEviction segment
      plan.1 = renderBody segment.value.blocks plan.2 ∧
        (segment.value.blocks.toList.any isToolUse = true → plan.1 = segment.value.blocks) ∧
        ∀ rendered seq, Segment.new segment.value.id segment.value.kind plan.1 = .ok rendered →
          planEviction (Sealed.seal blake3 seq rendered) = plan := by
  constructor
  · intro disposition body
    exact ⟨renderBody_sublist _ _, renderBody_keeps _ _, renderBody_idem _ _, renderBody_accepted _ _⟩
  · intro plan
    refine ⟨rfl, ?_, ?_⟩
    · intro huse
      have hkeep : plan.2 = .keep := if_pos huse
      change renderBody segment.value.blocks plan.2 = _
      rw [hkeep]
      rfl
    · intro rendered seq hnew
      have hblocks : rendered.blocks = renderBody segment.value.blocks plan.2 := (Segment.new_eq_ok hnew).2.2
      have hagain : ThinkingDisposition.decide rendered.blocks = plan.2 := by
        rw [hblocks]
        exact decide_renderBody _ _
      change (renderBody rendered.blocks (ThinkingDisposition.decide rendered.blocks),
        ThinkingDisposition.decide rendered.blocks) = _
      rw [hagain, hblocks, renderBody_idem]
      rfl

end SupraHarness.Prompt
