import SupraHarness.Types.Id

/-!
# Lineage

The chain of agents from the host to one peer. It always holds the root, no agent
twice, and at most one generation of peers.
-/
namespace SupraHarness.Types

inductive LineageError where
  | selfSpawn (id : AgentId) (atDepth : Nat)
  | maxDepthExceeded (attempted : Nat)
  | empty
  deriving DecidableEq, Repr

/-- Deepest permitted lineage: the host, then one generation of peers. -/
def Lineage.maxDepth : Nat := 1

structure Lineage where
  chain : List AgentId
  rooted : chain ≠ []
  simple : chain.Nodup
  flat : chain.length ≤ Lineage.maxDepth + 1
  deriving DecidableEq

namespace LineageError

/-- The `Display` text. -/
def text : LineageError → String
  | .selfSpawn id atDepth =>
      "agent " ++ id.text ++ " is already at depth " ++ toString atDepth
        ++ " of this lineage: a model may not spawn itself"
  | .maxDepthExceeded attempted =>
      "lineage depth " ++ toString attempted ++ " exceeds the maximum of "
        ++ toString Lineage.maxDepth ++ ": peers are siblings, not a tree"
  | .empty => "a lineage must contain at least its root"

end LineageError

namespace Lineage

def root (host : AgentId) : Lineage :=
  ⟨[host], by simp, by simp, by simp [maxDepth]⟩

/-- Distance from the root. -/
def depth (lineage : Lineage) : Nat := lineage.chain.length - 1

/-- Extend the lineage by one generation. -/
def child (lineage : Lineage) (id : AgentId) : Except LineageError Lineage :=
  if known : id ∈ lineage.chain then
    .error (.selfSpawn id (lineage.chain.idxOf id))
  else if deep : maxDepth < lineage.depth + 1 then
    .error (.maxDepthExceeded (lineage.depth + 1))
  else
    .ok ⟨lineage.chain ++ [id], by simp,
      List.nodup_append.mpr ⟨lineage.simple, by simp, by grind⟩,
      by
        have := List.length_pos_iff.mpr lineage.rooted
        simp [depth] at deep ⊢
        omega⟩

/-- A lineage grows by an agent it does not hold, and only from the root. -/
theorem child_ok_iff (lineage : Lineage) (id : AgentId) :
    (lineage.child id).isOk ↔ id ∉ lineage.chain ∧ lineage.depth = 0 := by
  unfold child
  by_cases known : id ∈ lineage.chain
  · simp [known, Except.isOk, Except.toBool]
  · by_cases deep : maxDepth < lineage.depth + 1
    · simp only [known, deep, dite_true, dite_false, not_false_eq_true, true_and]
      simp only [maxDepth] at deep
      simp [Except.isOk, Except.toBool]
      omega
    · simp only [known, deep, dite_false, not_false_eq_true, true_and]
      simp only [maxDepth] at deep
      simp [Except.isOk, Except.toBool]
      omega

end Lineage

end SupraHarness.Types

/-!
## The consent matrix

What an effect of one reversibility needs in one mode: it runs, it is a question,
or it is refused.
-/
namespace SupraHarness.Types

/-- How an effect can be taken back, as the classifier assigned it. -/
inductive Reversibility where
  | r0 | r1 | r2 | r3
  deriving DecidableEq, Repr

inductive Mode where
  | plan | ask | auto | yolo
  deriving DecidableEq, Repr

inductive Decision where
  | run | prompt | refuse
  deriving DecidableEq, Repr

/-- The matrix, one row a mode. -/
def Mode.decide : Mode → Reversibility → Decision
  | .plan, .r0 => .run
  | .plan, .r1 | .plan, .r2 | .plan, .r3 => .refuse
  | .ask, .r0 => .run
  | .ask, .r1 | .ask, .r2 | .ask, .r3 => .prompt
  | .auto, .r3 => .prompt
  | .auto, .r0 | .auto, .r1 | .auto, .r2 => .run
  | .yolo, _ => .run

/-- Only a plan refuses, and only what is not read-only. -/
theorem Mode.decide_refuse_iff (mode : Mode) (reversibility : Reversibility) :
    mode.decide reversibility = .refuse ↔ mode = .plan ∧ reversibility ≠ .r0 := by
  cases mode <;> cases reversibility <;> simp [Mode.decide]

end SupraHarness.Types
