import Mathlib.Data.String.Basic
import Mathlib.Order.Basic
import SupraHarness.Lib.OrdMap

/-!
# Configuration layers

A layer records what it states and is silent about the rest. Its source fixes its precedence, and
only the project layer is not under the control of the operator.
-/
namespace SupraHarness.Configuration

inductive Mode where
  | plan
  | ask
  | auto
  | yolo
  deriving DecidableEq, Repr

/-- Every mode, from most to least restrictive. -/
def Mode.all : List Mode := [.plan, .ask, .auto, .yolo]

inductive ConfigSource where
  | builtin
  | user
  | project
  | env
  | cli
  | session
  deriving DecidableEq, Repr

/-- The place of the source in the ladder, ascending by precedence. -/
def ConfigSource.rank : ConfigSource → Nat
  | .builtin => 0
  | .user => 1
  | .project => 2
  | .env => 3
  | .cli => 4
  | .session => 5

theorem ConfigSource.rank_injective : Function.Injective ConfigSource.rank := by
  intro a b h
  cases a <;> cases b <;> first | rfl | nomatch h

instance : LinearOrder ConfigSource := LinearOrder.lift' ConfigSource.rank ConfigSource.rank_injective

def ConfigSource.isOperatorControlled (source : ConfigSource) : Bool := source ≠ .project

structure ThinkingLayer where
  budget : Option UInt32

structure CohortLayer where
  limit : Option Nat

structure PermissionLayer where
  mode : Option Mode

structure PromptLayer where
  compactionThresholdPercent : Option UInt8

structure ProviderLayer where
  endpoint : Option String
  model : Option String
  apiKeyEnv : Option String
  apiKeyKeyring : Option String

structure ConfigLayer where
  thinking : Option ThinkingLayer
  cohort : Option CohortLayer
  permission : Option PermissionLayer
  prompt : Option PromptLayer
  providers : Option (OrdMap String ProviderLayer)

namespace ConfigLayer

def budget (layer : ConfigLayer) : Option UInt32 := layer.thinking.bind ThinkingLayer.budget

def limit (layer : ConfigLayer) : Option Nat := layer.cohort.bind CohortLayer.limit

def mode (layer : ConfigLayer) : Option Mode := layer.permission.bind PermissionLayer.mode

def percent (layer : ConfigLayer) : Option UInt8 := layer.prompt.bind PromptLayer.compactionThresholdPercent

/-- The entries of the providers table, in name order. -/
def entries (layer : ConfigLayer) : List (String × ProviderLayer) :=
  match layer.providers with
  | none => []
  | some providers => providers.entries

def provider (layer : ConfigLayer) (name : String) : Option ProviderLayer :=
  layer.providers.bind fun providers => providers.get name

/-- A layer that states nothing, whichever of its tables are present. -/
def Silent (layer : ConfigLayer) : Prop :=
  layer.budget = none ∧ layer.limit = none ∧ layer.mode = none ∧ layer.percent = none ∧
    layer.entries = []

theorem provider_eq (layer : ConfigLayer) (name : String) :
    layer.provider name = OrdMap.getIn name layer.entries := by
  rw [provider, entries]
  cases layer.providers <;> rfl

theorem entries_sorted (layer : ConfigLayer) : layer.entries.Pairwise fun a b => a.1 < b.1 := by
  rw [entries]
  cases layer.providers with
  | none => exact List.Pairwise.nil
  | some providers => exact providers.sorted

end ConfigLayer

end SupraHarness.Configuration
