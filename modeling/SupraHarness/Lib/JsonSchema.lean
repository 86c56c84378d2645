import Mathlib.Data.List.Basic

/-!
# JSON Schema

Which JSON values a schema describes. A schema is a JSON value itself: `true` describes every value, `false`
none, and an object those that meet its keywords, where the keywords on properties only speak of objects.
The keywords are `type`, `properties`, `additionalProperties` and `required`; others are annotations.
-/
namespace SupraHarness.JsonSchema

/-- The kinds of JSON values. -/
inductive Kind where
  | null
  | boolean
  | number
  | string
  | array
  | object
  deriving DecidableEq, Repr

namespace Kind

def name : Kind → String
  | null => "null"
  | boolean => "boolean"
  | number => "number"
  | string => "string"
  | array => "array"
  | object => "object"

theorem name_injective : Function.Injective name := by
  intro a b
  cases a <;> cases b <;> decide

end Kind

/-- A value at its top: what a string says, what an array holds, and what an object has under a key. -/
inductive View (V : Type) where
  | null
  | boolean (flag : Bool)
  | number
  | string (text : String)
  | array (items : List V)
  | object (get : String → Option V)

/-- A type of JSON values. -/
class Document (V : Type) where
  view : V → View V

export Document (view)

variable {V : Type} [Document V]

def kind (value : V) : Kind :=
  match view value with
  | .null => .null
  | .boolean _ => .boolean
  | .number => .number
  | .string _ => .string
  | .array _ => .array
  | .object _ => .object

def flag (value : V) : Option Bool :=
  match view value with
  | .boolean flag => some flag
  | _ => none

def text (value : V) : Option String :=
  match view value with
  | .string text => some text
  | _ => none

def items (value : V) : List V :=
  match view value with
  | .array items => items
  | _ => []

def get (value : V) (key : String) : Option V :=
  match view value with
  | .object get => get key
  | _ => none

/-- The schema of a property that a schema names. -/
def property (schema : V) (key : String) : Option V := (get schema "properties").bind fun properties => get properties key

/-- The properties that a schema asks for. -/
def required (schema : V) : List String := (((get schema "required").map items).getD []).filterMap text

/-- A value is what a schema describes, and so are its parts at every depth. -/
inductive Describes : V → V → Prop where
  | always {schema value : V} (all : flag schema = some true) : Describes schema value
  | keywords {schema value : V} (object : kind schema = .object)
      (type : ∀ declared ∈ get schema "type", text declared = some (kind value).name)
      (properties : ∀ key part sub, get value key = some part → property schema key = some sub → Describes sub part)
      (additional : ∀ key part sub, get value key = some part → property schema key = none →
        get schema "additionalProperties" = some sub → Describes sub part)
      (required : kind value = .object → ∀ key ∈ required schema, (get value key).isSome) : Describes schema value

variable {schema value : V}

/-! ## Kinds -/

theorem kind_of_flag {b : Bool} (h : flag value = some b) : kind value = .boolean := by
  unfold flag at h
  unfold kind
  cases seen : view value <;> rw [seen] at h <;> first | rfl | cases h

theorem flag_of_object (h : kind value = .object) : flag value = none := by
  cases seen : flag value with
  | none => rfl
  | some b =>
    rw [kind_of_flag seen] at h
    cases h

theorem kind_of_get {key : String} {part : V} (h : get value key = some part) : kind value = .object := by
  unfold get at h
  unfold kind
  cases seen : view value <;> rw [seen] at h <;> first | rfl | cases h

/-! ## Schemas of some kinds -/

theorem not_describes (none_ : flag schema = some false) : ¬ Describes schema value := by
  intro described
  cases described with
  | always all =>
    rw [none_] at all
    cases all
  | keywords object =>
    rw [kind_of_flag none_] at object
    cases object

/-- A schema that only says the type. -/
theorem describes_type_iff {type : String} {declared : V} (object : kind schema = .object)
    (typed : get schema "type" = some declared) (text_ : text declared = some type)
    (properties : get schema "properties" = none) (additional : get schema "additionalProperties" = none)
    (required_ : get schema "required" = none) : Describes schema value ↔ (kind value).name = type := by
  constructor
  · intro described
    cases described with
    | always all =>
      rw [flag_of_object object] at all
      cases all
    | keywords _ typed' =>
      have same := typed' declared typed
      rw [text_] at same
      exact (Option.some.inj same).symm
  · intro same
    refine .keywords object ?_ ?_ ?_ ?_
    · intro other there
      rw [typed] at there
      obtain rfl := Option.some.inj there
      rw [text_, same]
    · intro key part sub _ sub_
      rw [property, properties] at sub_
      cases sub_
    · intro key part sub _ _ extra
      rw [additional] at extra
      cases extra
    · intro _ key mem
      rw [required, required_] at mem
      cases mem

/-- A schema of objects without further properties. -/
theorem describes_closed_iff {declared extra : V} (object : kind schema = .object)
    (typed : get schema "type" = some declared) (text_ : text declared = some Kind.object.name)
    (additional : get schema "additionalProperties" = some extra) (closed : flag extra = some false) :
    Describes schema value ↔ kind value = .object ∧
      (∀ key part, get value key = some part → ∃ sub, property schema key = some sub ∧ Describes sub part) ∧
        ∀ key ∈ required schema, (get value key).isSome := by
  constructor
  · intro described
    cases described with
    | always all =>
      rw [flag_of_object object] at all
      cases all
    | keywords _ typed' properties additional' required' =>
      have same := typed' declared typed
      rw [text_] at same
      have object' := (Kind.name_injective (Option.some.inj same)).symm
      refine ⟨object', ?_, required' object'⟩
      intro key part there
      cases sub_ : property schema key with
      | some sub => exact ⟨sub, rfl, properties key part sub there sub_⟩
      | none => exact absurd (additional' key part extra there sub_ additional) (not_describes closed)
  · rintro ⟨object', all, required'⟩
    refine .keywords object ?_ ?_ ?_ fun _ => required'
    · intro other there
      rw [typed] at there
      obtain rfl := Option.some.inj there
      rw [text_, object']
    · intro key part sub there sub_
      obtain ⟨sub', same, described⟩ := all key part there
      rw [sub_] at same
      exact Option.some.inj same ▸ described
    · intro key part sub there sub_ _
      obtain ⟨sub', same, -⟩ := all key part there
      rw [sub_] at same
      cases same

end SupraHarness.JsonSchema
