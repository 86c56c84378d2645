import SupraHarness.Types.Lineage
import Mathlib.Data.List.Basic

/-!
# The permission gate

Explicit prohibitions come first, then authority, then the ceremony of stepping aside from a
guard, and consent last: whatever the mode and the rules that allow, they decide on consent only.
What is asked is asked in one batch, and each request is settled by its own answer.
-/
namespace SupraHarness.Types

/-- Who is asking to invoke a tool. -/
inductive Invoker where
  | agent | host | user
  deriving DecidableEq, Repr

/-- The minimum authority a tool requires of its caller. -/
inductive ToolClass where
  | agent | host | user
  deriving DecidableEq, Repr

def Invoker.rank : Invoker → Nat
  | agent => 0
  | host => 1
  | user => 2

def ToolClass.rank : ToolClass → Nat
  | agent => 0
  | host => 1
  | user => 2

def ToolClass.permits (toolClass : ToolClass) (invoker : Invoker) : Bool := toolClass.rank ≤ invoker.rank

/-- One class less severe. -/
def Reversibility.damped : Reversibility → Reversibility
  | r0 | r1 => r0
  | r2 => r1
  | r3 => r2

/-- Authority first, then consent. -/
def ToolClass.decide (toolClass : ToolClass) (invoker : Invoker) (mode : Mode) (reversibility : Reversibility) :
    Decision :=
  if ¬ toolClass.permits invoker then .refuse else mode.decide reversibility

/-- Where a permission rule came from, ascending in precedence. -/
inductive RuleSource where
  | builtin | user | project | cli | session
  deriving DecidableEq, Repr

def RuleSource.rank : RuleSource → Nat
  | builtin => 0
  | user => 1
  | project => 2
  | cli => 3
  | session => 4

inductive RuleEffect where
  | allow | deny
  deriving DecidableEq, Repr

structure Rule where
  source : RuleSource
  effect : RuleEffect
  deriving DecidableEq, Repr

namespace Rule

def stronger (best : Option Rule) (rule : Rule) : Option Rule :=
  match best with
  | none => some rule
  | some held => if held.source.rank ≤ rule.source.rank then some rule else some held

/-- `max_by_key` over the sources: the last of the rules with the highest one. -/
def strongest (rules : List Rule) : Option Rule := rules.foldl stronger none

/-- Combine competing rules. -/
def resolve (rules : List Rule) : Option RuleEffect :=
  if rules.any fun rule => rule.effect = .deny then some .deny
  else (strongest (rules.filter fun rule => rule.effect = .allow)).map effect

theorem foldl_strongest_mem (rules : List Rule) (held : Rule) :
    ∃ rule, rule ∈ held :: rules ∧ rules.foldl stronger (some held) = some rule := by
  induction rules generalizing held with
  | nil => exact ⟨held, by simp, rfl⟩
  | cons rule rules ih =>
    rw [List.foldl_cons]
    by_cases h : held.source.rank ≤ rule.source.rank
    · obtain ⟨found, hmem, hfound⟩ := ih rule
      refine ⟨found, List.mem_cons_of_mem _ hmem, ?_⟩
      simpa only [stronger, if_pos h] using hfound
    · obtain ⟨found, hmem, hfound⟩ := ih held
      refine ⟨found, ?_, ?_⟩
      · rcases List.mem_cons.mp hmem with rfl | hmem
        · exact List.mem_cons_self
        · exact List.mem_cons_of_mem _ (List.mem_cons_of_mem _ hmem)
      · simpa only [stronger, if_neg h] using hfound

theorem strongest_cons (rule : Rule) (rules : List Rule) :
    ∃ found, found ∈ rule :: rules ∧ strongest (rule :: rules) = some found := foldl_strongest_mem rules rule

/-- A deny beats every allow, whatever their sources. -/
theorem resolve_eq_deny_iff (rules : List Rule) :
    resolve rules = some .deny ↔ ∃ rule ∈ rules, rule.effect = .deny := by
  unfold resolve
  by_cases h : rules.any fun rule => rule.effect = .deny
  · rw [if_pos h]
    simpa using h
  · rw [if_neg h]
    have hnone : ¬ ∃ rule ∈ rules, rule.effect = .deny := by simpa using h
    refine iff_of_false ?_ hnone
    intro hdeny
    cases hallows : rules.filter fun rule => rule.effect = .allow with
    | nil =>
      rw [hallows] at hdeny
      cases hdeny
    | cons rule rest =>
      obtain ⟨found, hmem, hfound⟩ := strongest_cons rule rest
      rw [hallows, hfound, Option.map_some, Option.some_inj] at hdeny
      rw [← hallows, List.mem_filter] at hmem
      exact hnone ⟨found, hmem.1, hdeny⟩

theorem resolve_eq_allow_iff (rules : List Rule) :
    resolve rules = some .allow ↔ (∀ rule ∈ rules, rule.effect ≠ .deny) ∧ ∃ rule ∈ rules, rule.effect = .allow := by
  unfold resolve
  by_cases h : rules.any fun rule => rule.effect = .deny
  · rw [if_pos h]
    refine iff_of_false (by simp) ?_
    rintro ⟨hnone, -⟩
    obtain ⟨rule, hmem, hdeny⟩ : ∃ rule ∈ rules, rule.effect = .deny := by simpa using h
    exact hnone rule hmem hdeny
  · rw [if_neg h]
    have hnone : ∀ rule ∈ rules, rule.effect ≠ .deny := by simpa using h
    rw [and_iff_right hnone]
    cases hallows : rules.filter fun rule => rule.effect = .allow with
    | nil =>
      refine iff_of_false (by simp [strongest]) ?_
      rintro ⟨rule, hmem, hallow⟩
      have hin : rule ∈ rules.filter fun rule => rule.effect = .allow :=
        List.mem_filter.mpr ⟨hmem, by simpa using hallow⟩
      rw [hallows] at hin
      cases hin
    | cons rule rest =>
      obtain ⟨found, hmem, hfound⟩ := strongest_cons rule rest
      rw [← hallows, List.mem_filter] at hmem
      have hallow : found.effect = .allow := by simpa using hmem.2
      rw [hfound, Option.map_some, hallow]
      exact iff_of_true rfl ⟨found, hmem.1, hallow⟩

end Rule

end SupraHarness.Types

/-!
## One request
-/
namespace SupraHarness.Permission

open Types

/-- Why a recoverable edit is recoverable. -/
inductive RecoveryBasis where
  | snapshot | gitClean
  deriving DecidableEq, Repr

/-- A resolved effect: what the tool is about to do, as a shape. -/
inductive Effect where
  | read
  | scratchWork
  | recoverableEdit (basis : RecoveryBasis)
  | structuralEdit (basis : RecoveryBasis)
  | blindEdit
  | outsideEdit (path : String)
  | networkPost (target : String)
  | forcePush (target : String)
  | remove (target : String)
  | dropData (target : String)
  | escapeHatch (what : String)
  deriving DecidableEq, Repr

namespace Effect

def reversibility : Effect → Reversibility
  | read | scratchWork => .r0
  | recoverableEdit _ | structuralEdit _ => .r1
  | blindEdit | outsideEdit _ => .r2
  | networkPost _ | forcePush _ | remove _ | dropData _ | escapeHatch _ => .r3

/-- Whether the damping rule applies. -/
def isStructural : Effect → Bool
  | structuralEdit _ => true
  | _ => false

def isEscapeHatch : Effect → Bool
  | escapeHatch _ => true
  | _ => false

end Effect

structure Request where
  effect : Effect
  toolClass : ToolClass
  invoker : Invoker
  summary : String
  deriving DecidableEq, Repr

/-- Why the gate is asking. -/
inductive AskReason where
  | matrix | escapeHatch
  deriving DecidableEq, Repr

/-- Why the gate refused. -/
inductive RefuseReason where
  | rule (source : RuleSource)
  | authority
  | plan
  | notAnswered (summary : String)
  deriving DecidableEq, Repr

inductive Outcome where
  | run
  | ask (request : Request) (reason : AskReason)
  | refuse (reason : RefuseReason)
  deriving DecidableEq, Repr

/-- The class that the matrix is asked about: damped for a verified splice. -/
def Request.rated (request : Request) : Reversibility :=
  if request.effect.isStructural then request.effect.reversibility.damped else request.effect.reversibility

def Request.consented (request : Request) : Decision → Outcome
  | .run => .run
  | .prompt => .ask request .matrix
  | .refuse => .refuse .plan

/-- The complete gate: explicit deny, authority, mandatory ceremony, then consent. -/
def gate (request : Request) (mode : Mode) (rules : List Rule) : Outcome :=
  let resolvedRule := Rule.resolve rules
  if resolvedRule = some .deny then
    .refuse (.rule (((rules.find? fun rule => rule.effect = .deny).map Rule.source).getD .builtin))
  else if ¬ request.toolClass.permits request.invoker then .refuse .authority
  else if request.effect.isEscapeHatch then .ask request .escapeHatch
  else if resolvedRule = some .allow then .run
  else request.consented (request.toolClass.decide request.invoker mode request.rated)

/-- What the rules have to say of a request. -/
def Denied (rules : List Rule) : Prop := ∃ rule ∈ rules, rule.effect = .deny

def Allowed (rules : List Rule) : Prop := ∃ rule ∈ rules, rule.effect = .allow

/-- The gate, one case for each thing that decides. -/
theorem gate_cases (request : Request) (mode : Mode) (rules : List Rule) :
    (Denied rules ∧ ∃ rule ∈ rules, rule.effect = .deny ∧ gate request mode rules = .refuse (.rule rule.source)) ∨
      (¬ Denied rules ∧ request.toolClass.permits request.invoker = false ∧
        gate request mode rules = .refuse .authority) ∨
      (¬ Denied rules ∧ request.toolClass.permits request.invoker = true ∧ request.effect.isEscapeHatch = true ∧
        gate request mode rules = .ask request .escapeHatch) ∨
      (¬ Denied rules ∧ request.toolClass.permits request.invoker = true ∧ request.effect.isEscapeHatch = false ∧
        Allowed rules ∧ gate request mode rules = .run) ∨
      (¬ Denied rules ∧ request.toolClass.permits request.invoker = true ∧ request.effect.isEscapeHatch = false ∧
        ¬ Allowed rules ∧ gate request mode rules = request.consented (mode.decide request.rated)) := by
  unfold gate
  by_cases hdeny : Denied rules
  · refine .inl ⟨hdeny, ?_⟩
    obtain ⟨rule, hmem, heffect⟩ := hdeny
    obtain ⟨found, hfound⟩ : ∃ found, rules.find? (fun rule => rule.effect = .deny) = some found := by
      rw [← Option.isSome_iff_exists, List.find?_isSome]
      exact ⟨rule, hmem, by simpa using heffect⟩
    refine ⟨found, List.mem_of_find?_eq_some hfound, by simpa using List.find?_some hfound, ?_⟩
    rw [if_pos ((Rule.resolve_eq_deny_iff rules).mpr ⟨rule, hmem, heffect⟩), hfound]
    rfl
  · right
    rw [if_neg (mt (Rule.resolve_eq_deny_iff rules).mp hdeny)]
    cases hpermits : request.toolClass.permits request.invoker with
    | false => exact .inl ⟨hdeny, rfl, by rw [if_pos (by simp)]⟩
    | true =>
      right
      rw [if_neg (by simp)]
      cases hhatch : request.effect.isEscapeHatch with
      | true => exact .inl ⟨hdeny, rfl, rfl, by rw [if_pos rfl]⟩
      | false =>
        right
        rw [if_neg (by simp)]
        have hnone : ∀ rule ∈ rules, rule.effect ≠ .deny := fun rule hmem h => hdeny ⟨rule, hmem, h⟩
        by_cases hallow : Allowed rules
        · exact .inl ⟨hdeny, rfl, rfl, hallow, by rw [if_pos ((Rule.resolve_eq_allow_iff rules).mpr ⟨hnone, hallow⟩)]⟩
        · right
          refine ⟨hdeny, rfl, rfl, hallow, ?_⟩
          rw [if_neg fun h => hallow ((Rule.resolve_eq_allow_iff rules).mp h).2, ToolClass.decide, hpermits,
            if_neg (by simp)]

/-- How far a request gets: refused, asked about, or run. -/
def Outcome.rank : Outcome → Nat
  | .refuse _ => 0
  | .ask _ _ => 1
  | .run => 2

def modeRank : Mode → Nat
  | .plan => 0
  | .ask => 1
  | .auto => 2
  | .yolo => 3

theorem Outcome.rank_le_two (outcome : Outcome) : outcome.rank ≤ 2 := by cases outcome <;> simp [rank]

theorem consented_mono (request : Request) (reversibility : Reversibility) {mode mode' : Mode}
    (h : modeRank mode ≤ modeRank mode') :
    (request.consented (mode.decide reversibility)).rank ≤ (request.consented (mode'.decide reversibility)).rank := by
  cases mode <;> cases mode' <;> cases reversibility <;>
    simp_all [modeRank, Mode.decide, Request.consented, Outcome.rank]

theorem gate_mono (request : Request) {mode mode' : Mode} {rules rules' : List Rule}
    (hmode : modeRank mode ≤ modeRank mode') (hdenied : Denied rules' → Denied rules)
    (hallowed : Allowed rules → Allowed rules') :
    (gate request mode rules).rank ≤ (gate request mode' rules').rank := by
  have hfirst := gate_cases request mode rules
  rcases gate_cases request mode' rules' with ⟨hdeny', rule', -, -, heq'⟩ | ⟨hdeny', hpermits', heq'⟩ |
    ⟨hdeny', hpermits', hhatch', heq'⟩ | ⟨hdeny', hpermits', hhatch', hallow', heq'⟩ |
    ⟨hdeny', hpermits', hhatch', hallow', heq'⟩
  · rcases hfirst with ⟨-, rule, -, -, heq⟩ | ⟨hdeny, -⟩ | ⟨hdeny, -⟩ | ⟨hdeny, -⟩ | ⟨hdeny, -⟩
    · rw [heq, heq']
      exact Nat.le_refl _
    all_goals exact absurd (hdenied hdeny') hdeny
  · rcases hfirst with ⟨-, rule, -, -, heq⟩ | ⟨-, -, heq⟩ | ⟨-, hpermits, -⟩ | ⟨-, hpermits, -⟩ | ⟨-, hpermits, -⟩
    · rw [heq]
      exact Nat.zero_le _
    · rw [heq]
      exact Nat.zero_le _
    all_goals exact absurd (hpermits'.symm.trans hpermits) (by simp)
  · rcases hfirst with ⟨-, rule, -, -, heq⟩ | ⟨-, -, heq⟩ | ⟨-, -, -, heq⟩ | ⟨-, -, hhatch, -⟩ | ⟨-, -, hhatch, -⟩
    · rw [heq]
      exact Nat.zero_le _
    · rw [heq]
      exact Nat.zero_le _
    · rw [heq, heq']
    all_goals exact absurd (hhatch.symm.trans hhatch') (by simp)
  · rw [heq']
    exact Outcome.rank_le_two _
  · rcases hfirst with ⟨-, rule, -, -, heq⟩ | ⟨-, -, heq⟩ | ⟨-, -, hhatch, -⟩ | ⟨-, -, -, hallow, -⟩ | ⟨-, -, -, -, heq⟩
    · rw [heq]
      exact Nat.zero_le _
    · rw [heq]
      exact Nat.zero_le _
    · exact absurd (hhatch'.symm.trans hhatch) (by simp)
    · exact absurd (hallowed hallow) hallow'
    · rw [heq, heq']
      exact consented_mono request _ hmode

/-- Modes and rules that allow relax consent and nothing else: whatever they are, a denied request or one beyond its
caller's authority is refused, and stepping aside from a guard is a question. A looser mode and more allows never get
a request less far, and in what order the rules are listed, or how often, makes no difference to how far it gets. -/
theorem gate_relaxes_consent_only (request : Request) (mode : Mode) (rules : List Rule) :
    ((Denied rules ∨ request.toolClass.permits request.invoker = false) ↔
      ∀ mode' rules', (Denied rules → Denied rules') → (gate request mode' rules').rank = 0) ∧
      (request.effect.isEscapeHatch = true → gate request mode rules ≠ .run ∧
        (¬ Denied rules → request.toolClass.permits request.invoker = true →
          gate request mode rules = .ask request .escapeHatch)) ∧
      (∀ mode' rules', modeRank mode ≤ modeRank mode' → (Denied rules' → Denied rules) →
        (Allowed rules → Allowed rules') → (gate request mode rules).rank ≤ (gate request mode' rules').rank) ∧
      ∀ rules', (∀ rule, rule ∈ rules' ↔ rule ∈ rules) →
        (gate request mode rules').rank = (gate request mode rules).rank := by
  refine ⟨?_, ?_, ?_, ?_⟩
  · constructor
    · intro h mode' rules' hrules
      rcases gate_cases request mode' rules' with ⟨-, rule, -, -, heq⟩ | ⟨-, -, heq⟩ | ⟨hdeny, hpermits, -⟩ |
        ⟨hdeny, hpermits, -⟩ | ⟨hdeny, hpermits, -⟩
      · rw [heq]
        rfl
      · rw [heq]
        rfl
      all_goals
        rw [hpermits] at h
        exact absurd (h.elim hrules fun h => absurd h (by simp)) hdeny
    · intro h
      by_contra hno
      rw [not_or, Bool.not_eq_false] at hno
      have hrank := h .yolo rules id
      rcases gate_cases request .yolo rules with ⟨hdeny, -⟩ | ⟨-, hpermits, -⟩ | ⟨-, -, -, heq⟩ | ⟨-, -, -, -, heq⟩ |
        ⟨-, -, -, -, heq⟩
      · exact hno.1 hdeny
      · rw [hno.2] at hpermits
        cases hpermits
      all_goals
        rw [heq] at hrank
        cases hrank
  · intro hhatch
    rcases gate_cases request mode rules with ⟨hdeny, rule, -, -, heq⟩ | ⟨hdeny, hpermits, heq⟩ | ⟨hdeny, -, -, heq⟩ |
      ⟨-, -, hno, -⟩ | ⟨-, -, hno, -⟩
    · exact ⟨by simp [heq], fun h => absurd hdeny h⟩
    · exact ⟨by simp [heq], fun _ h => absurd (hpermits.symm.trans h) (by simp)⟩
    · exact ⟨by simp [heq], fun _ _ => heq⟩
    all_goals exact absurd (hno.symm.trans hhatch) (by simp)
  · intro mode' rules' hmode hdenied hallowed
    exact gate_mono request hmode hdenied hallowed
  · intro rules' hsame
    have hdenied : Denied rules' ↔ Denied rules := by simp only [Denied, hsame]
    have hallowed : Allowed rules' ↔ Allowed rules := by simp only [Allowed, hsame]
    exact Nat.le_antisymm (gate_mono request (Nat.le_refl _) hdenied.mpr hallowed.mp)
      (gate_mono request (Nat.le_refl _) hdenied.mp hallowed.mpr)

/-!
## A batch of questions
-/

inductive PermissionError where
  | denied (origin : RuleSource)
  | emptyBatch
  deriving DecidableEq, Repr

/-- A batch of pending questions: one prompt, per-item answers. -/
structure Batch where
  items : List Request
  asked : items ≠ []

def Outcome.question : Outcome → Option Request
  | .ask request _ => some request
  | _ => none

namespace Batch

/-- Collect the asks from a set of gate outcomes. -/
def collect (outcomes : List Outcome) : Except PermissionError Batch :=
  if h : outcomes.filterMap Outcome.question = [] then .error .emptyBatch
  else .ok ⟨outcomes.filterMap Outcome.question, h⟩

def settle (request : Request) (answer : Bool) : Outcome :=
  if answer then .run else .refuse (.notAnswered request.summary)

/-- Turn per-item answers into final outcomes; a missing answer counts as a no. -/
def resolve (batch : Batch) (answers : List Bool) : List Outcome :=
  List.zipWith settle batch.items (answers ++ List.replicate batch.items.length false)

theorem length_resolve (batch : Batch) (answers : List Bool) :
    (batch.resolve answers).length = batch.items.length := by
  rw [resolve, List.length_zipWith, List.length_append, List.length_replicate]
  omega

/-- Each item is settled by the answer in its place. -/
theorem getElem?_resolve (batch : Batch) (answers : List Bool) {i : Nat} {request : Request}
    (h : batch.items[i]? = some request) :
    (batch.resolve answers)[i]? = some (settle request (answers[i]?.getD false)) := by
  have hi : i < batch.items.length := (List.getElem?_eq_some_iff.mp h).1
  rw [resolve, List.getElem?_zipWith, h]
  by_cases hanswer : i < answers.length
  · rw [List.getElem?_append_left hanswer, List.getElem?_eq_getElem hanswer]
    rfl
  · rw [List.getElem?_append_right (Nat.le_of_not_lt hanswer), List.getElem?_replicate,
      if_pos (by omega), List.getElem?_eq_none (Nat.le_of_not_lt hanswer)]
    rfl

end Batch

/-- The gate asks about the request it was given. -/
theorem question_gate (request : Request) (mode : Mode) (rules : List Rule) :
    (gate request mode rules).question = if (gate request mode rules).rank = 1 then some request else none := by
  rcases gate_cases request mode rules with ⟨-, rule, -, -, heq⟩ | ⟨-, -, heq⟩ | ⟨-, -, -, heq⟩ | ⟨-, -, -, -, heq⟩ |
    ⟨-, -, -, -, heq⟩
  · rw [heq]
    rfl
  · rw [heq]
    rfl
  · rw [heq]
    rfl
  · rw [heq]
    rfl
  · rw [heq]
    cases mode.decide request.rated <;> rfl

theorem filterMap_question (requests : List Request) (mode : Mode) (rules : List Rule) :
    (requests.map fun request => gate request mode rules).filterMap Outcome.question =
      requests.filter fun request => (gate request mode rules).rank = 1 := by
  induction requests with
  | nil => rfl
  | cons request requests ih =>
    rw [List.map_cons]
    by_cases h : (gate request mode rules).rank = 1
    · rw [List.filterMap_cons_some (b := request) (by rw [question_gate, if_pos h]),
        List.filter_cons_of_pos (by simpa using h), ih]
    · rw [List.filterMap_cons_none (by rw [question_gate, if_neg h]), List.filter_cons_of_neg (by simpa using h), ih]

/-- There is a prompt exactly when some request is asked about, and it carries the requests that are, in their order;
every one of them is settled by the answer in its own place, and by nothing else runs. A guard steps aside only for a
request that was in the prompt. -/
theorem batch_settles_each (requests : List Request) (mode : Mode) (rules : List Rule) :
    (Batch.collect (requests.map fun request => gate request mode rules) = .error .emptyBatch ↔
      ∀ request ∈ requests, (gate request mode rules).rank ≠ 1) ∧
      ∀ batch, Batch.collect (requests.map fun request => gate request mode rules) = .ok batch →
        batch.items = requests.filter (fun request => (gate request mode rules).rank = 1) ∧
          (∀ request ∈ requests, request.effect.isEscapeHatch = true → request ∈ batch.items ∨
            ∃ reason, gate request mode rules = .refuse reason) ∧
          ∀ answers, (batch.resolve answers).length = batch.items.length ∧
            ∀ (i : Nat) (request : Request), batch.items[i]? = some request →
              ((batch.resolve answers)[i]? = some Outcome.run ↔ answers[i]? = some true) ∧
                ((batch.resolve answers)[i]? ≠ some Outcome.run →
                  (batch.resolve answers)[i]? = some (Outcome.refuse (.notAnswered request.summary))) := by
  have hfilter := filterMap_question requests mode rules
  unfold Batch.collect
  constructor
  · by_cases hnone : (requests.map fun request => gate request mode rules).filterMap Outcome.question = []
    · rw [dif_pos hnone]
      rw [hfilter, List.filter_eq_nil_iff] at hnone
      exact iff_of_true rfl fun request hmem => by simpa using hnone request hmem
    · rw [dif_neg hnone]
      refine iff_of_false (by simp) ?_
      intro hall
      rw [hfilter, List.filter_eq_nil_iff] at hnone
      exact hnone fun request hmem => by simpa using hall request hmem
  · intro batch hbatch
    by_cases hnone : (requests.map fun request => gate request mode rules).filterMap Outcome.question = []
    · rw [dif_pos hnone] at hbatch
      cases hbatch
    · rw [dif_neg hnone] at hbatch
      cases hbatch
      refine ⟨hfilter, ?_, ?_⟩
      · intro request hmem hhatch
        change request ∈ List.filterMap Outcome.question _ ∨ _
        rw [hfilter, List.mem_filter]
        rcases gate_cases request mode rules with ⟨-, rule, -, -, heq⟩ | ⟨-, -, heq⟩ | ⟨-, -, -, heq⟩ |
          ⟨-, -, hno, -⟩ | ⟨-, -, hno, -⟩
        · exact .inr ⟨_, heq⟩
        · exact .inr ⟨_, heq⟩
        · exact .inl ⟨hmem, by simp [heq, Outcome.rank]⟩
        all_goals exact absurd (hno.symm.trans hhatch) (by simp)
      · intro answers
        refine ⟨Batch.length_resolve _ _, ?_⟩
        intro i request hitem
        rw [Batch.getElem?_resolve _ answers hitem]
        cases hanswer : answers[i]? with
        | none => simp [Batch.settle]
        | some answer => cases answer <;> simp [Batch.settle]

end SupraHarness.Permission
