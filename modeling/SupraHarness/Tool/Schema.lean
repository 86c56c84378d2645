import Mathlib.Data.String.Basic
import SupraHarness.Lib.DebugText
import SupraHarness.Lib.JsonSchema
import SupraHarness.Lib.OrdMap
import SupraHarness.Lib.Str
import SupraHarness.Llm.Scanner

/-!
# Schemas of tool arguments

The fields a tool takes. The list of them is read in two ways: arguments are validated against it, and the
provider is sent it as a JSON Schema. The schema describes exactly the arguments that validate.
-/
namespace SupraHarness.Tool

open JsonSchema (Document Kind Describes)

/-! ## Refusals -/

inductive ToolError where
  | unknownTool (name : String) (known : List String)
  | badArguments (tool got : String)
  | missingField (tool field : String)
  | wrongFieldType (tool field expected got : String)
  | unknownField (tool field : String)
  | preconditionFailed (step needs : String)
  | disabled (name : String)
  deriving DecidableEq, Repr

section

variable (numbered : Char → Bool)

/-- `Debug` of a text. -/
def debug (text : String) : String := String.ofList (DebugText.quote numbered text.toList)

/-- What the canonicaliser's error says. -/
def display : Llm.CanonicalError → String
  | .float path =>
    s!"tool arguments must not contain floats (found at {path}): floats have no byte-stable text form"
  | .duplicateKey key path => s!"tool arguments must not repeat object keys (duplicate {debug numbered key} at {path})"
  | .invalid detail => s!"tool arguments are not valid JSON: {detail}"
  | .numberOutOfRange path => s!"number at {path} does not fit in 64 bits"

/-- Arguments that cannot be made canonical are bad arguments, of no tool in particular. -/
def ToolError.ofCanonical (error : Llm.CanonicalError) : ToolError :=
  .badArguments "" s!"arguments are not valid canonical JSON: {display numbered error}"

end

/-! ## Fields and schemas -/

inductive FieldType where
  | text
  | number
  | boolean
  deriving DecidableEq, Repr

namespace FieldType

def name : FieldType → String
  | text => "string"
  | number => "number"
  | boolean => "boolean"

variable {φ : Type}

/-- Whether a value `matches` the type. -/
def admits : FieldType → Llm.Value φ → Bool
  | text, .string _ => true
  | number, .number _ => true
  | boolean, .bool _ => true
  | _, _ => false

end FieldType

structure Field where
  name : String
  fieldType : FieldType
  required : Bool
  description : String
  deriving DecidableEq, Repr

def blank (text : String) : Bool := (Str.trim text.toList).isEmpty

/-- The fields of a tool's arguments: no name empty or used twice, no description blank. -/
structure Schema where
  tool : String
  fields : List Field
  named : ∀ field ∈ fields, field.name ≠ ""
  distinct : (fields.map Field.name).Nodup
  described : ∀ field ∈ fields, blank field.description = false

/-- The loop of `build`, from the names it has seen. -/
def checkFields (numbered : Char → Bool) (tool : String) (seen : List String) : List Field → Except ToolError Unit
  | [] => .ok ()
  | field :: fields =>
    if field.name = "" then .error (.badArguments tool "a schema with an empty field name")
    else if field.name ∈ seen then .error (.badArguments tool s!"schema field {debug numbered field.name} declared twice")
    else if blank field.description then
      .error (.badArguments tool s!"schema field {debug numbered field.name} has no description")
    else checkFields numbered tool (field.name :: seen) fields

theorem checkFields_eq_ok {numbered : Char → Bool} {tool : String} {seen : List String} {fields : List Field} :
    checkFields numbered tool seen fields = .ok () ↔
      (∀ field ∈ fields, field.name ≠ "") ∧ ((fields.map Field.name).Nodup ∧ ∀ field ∈ fields, field.name ∉ seen) ∧
        ∀ field ∈ fields, blank field.description = false := by
  induction fields generalizing seen with
  | nil => exact iff_of_true rfl ⟨nofun, ⟨List.nodup_nil, nofun⟩, nofun⟩
  | cons field fields ih =>
    rw [checkFields]
    simp only [List.forall_mem_cons, List.map_cons, List.nodup_cons]
    by_cases empty : field.name = ""
    · rw [if_pos empty]
      exact iff_of_false nofun fun all => all.1.1 empty
    · rw [if_neg empty]
      by_cases known : field.name ∈ seen
      · rw [if_pos known]
        exact iff_of_false nofun fun all => all.2.1.2.1 known
      · rw [if_neg known]
        by_cases bare : blank field.description = true
        · rw [if_pos bare]
          exact iff_of_false nofun fun all => absurd all.2.2.1 (by simp [bare])
        · rw [if_neg bare, ih]
          simp only [Bool.not_eq_true] at bare
          simp only [List.mem_cons, not_or, List.mem_map, not_exists, not_and]
          constructor
          · rintro ⟨names, ⟨nodup, fresh⟩, descriptions⟩
            exact ⟨⟨empty, names⟩, ⟨⟨fun other mem => (fresh other mem).1, nodup⟩, known,
              fun other mem => (fresh other mem).2⟩, bare, descriptions⟩
          · rintro ⟨⟨-, names⟩, ⟨⟨apart, nodup⟩, -, fresh⟩, -, descriptions⟩
            exact ⟨names, ⟨nodup, fun other mem => ⟨apart other mem, fresh other mem⟩⟩, descriptions⟩

namespace Schema

def build (numbered : Char → Bool) (tool : String) (fields : List Field) : Except ToolError Schema :=
  match h : checkFields numbered tool [] fields with
  | .error error => .error error
  | .ok () =>
    have checked := checkFields_eq_ok.1 h
    .ok ⟨tool, fields, checked.1, checked.2.1.1, checked.2.2⟩

variable {φ : Type}

/-! ## Validation -/

/-- The JSON type of a value, by name. -/
def typeName : Llm.Value φ → String
  | .null => "null"
  | .bool _ => "boolean"
  | .number _ => "number"
  | .string _ => "string"
  | .array _ => "array"
  | .object _ => "object"

/-- The check of one field. -/
def validateField (tool : String) (arguments : List (String × Llm.Value φ)) (field : Field) : Except ToolError Unit :=
  match arguments.lookup field.name with
  | none => if field.required then .error (.missingField tool field.name) else .ok ()
  | some value =>
    if field.fieldType.admits value then .ok ()
    else .error (.wrongFieldType tool field.name field.fieldType.name (typeName value))

/-- The first field that fails its check. -/
def validateFields (tool : String) (arguments : List (String × Llm.Value φ)) : List Field → Except ToolError Unit
  | [] => .ok ()
  | field :: fields =>
    match validateField tool arguments field with
    | .error error => .error error
    | .ok () => validateFields tool arguments fields

/-- The first argument that is none of the fields. -/
def refuseUnknown (schema : Schema) : List (String × Llm.Value φ) → Except ToolError Unit
  | [] => .ok ()
  | (name, _) :: arguments =>
    if schema.fields.any fun field => field.name = name then refuseUnknown schema arguments
    else .error (.unknownField schema.tool name)

def validate (schema : Schema) (arguments : List (String × Llm.Value φ)) : Except ToolError Unit :=
  match validateFields schema.tool arguments schema.fields with
  | .error error => .error error
  | .ok () => schema.refuseUnknown arguments

/-- Each required field is there, each field that is there has its type, and nothing else is there. -/
structure Accepts (schema : Schema) (arguments : List (String × Llm.Value φ)) : Prop where
  required : ∀ field ∈ schema.fields, field.required = true → (arguments.lookup field.name).isSome
  typed : ∀ field ∈ schema.fields, ∀ value ∈ arguments.lookup field.name, field.fieldType.admits value = true
  known : ∀ name ∈ arguments.map Prod.fst, name ∈ schema.fields.map Field.name

theorem validateField_eq_ok {tool : String} {arguments : List (String × Llm.Value φ)} {field : Field} :
    validateField tool arguments field = .ok () ↔
      (field.required = true → (arguments.lookup field.name).isSome) ∧
        ∀ value ∈ arguments.lookup field.name, field.fieldType.admits value = true := by
  rw [validateField]
  cases arguments.lookup field.name with
  | none => cases field.required <;> simp
  | some value => by_cases admitted : field.fieldType.admits value = true <;> simp [admitted]

theorem validateFields_eq_ok {tool : String} {arguments : List (String × Llm.Value φ)} {fields : List Field} :
    validateFields tool arguments fields = .ok () ↔ ∀ field ∈ fields, validateField tool arguments field = .ok () := by
  induction fields with
  | nil => exact iff_of_true rfl nofun
  | cons field fields ih =>
    rw [validateFields, List.forall_mem_cons]
    cases validateField tool arguments field with
    | error error => exact iff_of_false nofun fun all => nomatch all.1
    | ok _ => simpa using ih

theorem refuseUnknown_eq_ok {schema : Schema} {arguments : List (String × Llm.Value φ)} :
    schema.refuseUnknown arguments = .ok () ↔ ∀ name ∈ arguments.map Prod.fst, name ∈ schema.fields.map Field.name := by
  induction arguments with
  | nil => exact iff_of_true rfl nofun
  | cons argument arguments ih =>
    obtain ⟨name, value⟩ := argument
    have there : (schema.fields.any fun field => field.name = name) = true ↔ name ∈ schema.fields.map Field.name := by
      simp
    rw [refuseUnknown, List.map_cons, List.forall_mem_cons, ← there]
    by_cases known : (schema.fields.any fun field => field.name = name) = true
    · rw [if_pos known, ih, and_iff_right known]
    · rw [if_neg known]
      exact iff_of_false nofun fun all => known all.1

theorem validate_eq_ok {schema : Schema} {arguments : List (String × Llm.Value φ)} :
    schema.validate arguments = .ok () ↔ schema.Accepts arguments := by
  have both : schema.validate arguments = .ok () ↔
      validateFields schema.tool arguments schema.fields = .ok () ∧ schema.refuseUnknown arguments = .ok () := by
    rw [validate]
    cases validateFields schema.tool arguments schema.fields with
    | error error => exact iff_of_false nofun fun all => nomatch all.1
    | ok _ => simp
  rw [both, validateFields_eq_ok, refuseUnknown_eq_ok]
  simp only [validateField_eq_ok]
  constructor
  · rintro ⟨each, known⟩
    exact ⟨fun field mem => (each field mem).1, fun field mem => (each field mem).2, known⟩
  · intro accepts
    exact ⟨fun field mem => ⟨accepts.required field mem, accepts.typed field mem⟩, accepts.known⟩

/-- What a refusal says: a required field that is not there, a field of another type, or an argument that is
no field. -/
inductive Refuses (tool : String) (fields : List Field) (arguments : List (String × Llm.Value φ)) : ToolError → Prop where
  | missing {field : Field} (mem : field ∈ fields) (must : field.required = true)
      (absent : arguments.lookup field.name = none) : Refuses tool fields arguments (.missingField tool field.name)
  | wrongType {field : Field} {value : Llm.Value φ} (mem : field ∈ fields)
      (there : arguments.lookup field.name = some value) (other : field.fieldType.admits value = false) :
      Refuses tool fields arguments (.wrongFieldType tool field.name field.fieldType.name (typeName value))
  | unknown {name : String} (mem : name ∈ arguments.map Prod.fst) (none_ : name ∉ fields.map Field.name) :
      Refuses tool fields arguments (.unknownField tool name)

theorem refuses_of_validateField {tool : String} {fields : List Field} {arguments : List (String × Llm.Value φ)}
    {field : Field} {error : ToolError} (mem : field ∈ fields) (refused : validateField tool arguments field = .error error) :
    Refuses tool fields arguments error := by
  rw [validateField] at refused
  cases found : arguments.lookup field.name with
  | none =>
    rw [found] at refused
    dsimp only at refused
    split_ifs at refused with must
    obtain rfl := Except.error.inj refused
    exact .missing mem must found
  | some value =>
    rw [found] at refused
    dsimp only at refused
    split_ifs at refused with admitted
    obtain rfl := Except.error.inj refused
    exact .wrongType mem found (by simpa using admitted)

theorem validateFields_error {tool : String} {arguments : List (String × Llm.Value φ)} {fields : List Field}
    {error : ToolError} (refused : validateFields tool arguments fields = .error error) :
    ∃ field ∈ fields, validateField tool arguments field = .error error := by
  induction fields with
  | nil => cases refused
  | cons field fields ih =>
    rw [validateFields] at refused
    cases checked : validateField tool arguments field with
    | error error' =>
      rw [checked] at refused
      exact ⟨field, List.mem_cons_self, checked.trans refused⟩
    | ok _ =>
      rw [checked] at refused
      obtain ⟨other, mem, refused⟩ := ih refused
      exact ⟨other, List.mem_cons_of_mem _ mem, refused⟩

theorem refuseUnknown_error {schema : Schema} {arguments : List (String × Llm.Value φ)} {error : ToolError}
    (refused : schema.refuseUnknown arguments = .error error) :
    ∃ name ∈ arguments.map Prod.fst, name ∉ schema.fields.map Field.name ∧ error = .unknownField schema.tool name := by
  induction arguments with
  | nil => cases refused
  | cons argument arguments ih =>
    obtain ⟨name, value⟩ := argument
    rw [refuseUnknown] at refused
    split_ifs at refused with known
    · obtain ⟨other, mem, apart, equal⟩ := ih refused
      exact ⟨other, List.mem_cons_of_mem _ mem, apart, equal⟩
    · exact ⟨name, List.mem_cons_self, by simpa using known, (Except.error.inj refused).symm⟩

/-- A refusal names the tool of the schema, and the field it is about. -/
theorem refuses_of_validate {schema : Schema} {arguments : List (String × Llm.Value φ)} {error : ToolError}
    (refused : schema.validate arguments = .error error) : Refuses schema.tool schema.fields arguments error := by
  rw [validate] at refused
  cases checked : validateFields schema.tool arguments schema.fields with
  | error error' =>
    rw [checked] at refused
    obtain ⟨field, mem, failed⟩ := validateFields_error (checked.trans refused)
    exact refuses_of_validateField mem failed
  | ok _ =>
    rw [checked] at refused
    obtain ⟨name, mem, apart, rfl⟩ := refuseUnknown_error refused
    exact .unknown mem apart

/-! ## The provider's schema -/

/-- The schema of one property. -/
def property (field : Field) : Llm.Value φ :=
  .object [("description", .string field.description), ("type", .string field.fieldType.name)]

def properties (fields : List Field) : List (String × Llm.Value φ) :=
  fields.foldl (fun map field => OrdMap.insertIn field.name (property field) map) []

/-- The names of the fields that must be there. -/
def required (fields : List Field) : List (Llm.Value φ) :=
  (fields.filter Field.required).map fun field => .string field.name

/-- The schema that is sent to the provider, its keys in the order of the map. -/
def toProviderSchema (schema : Schema) : Llm.Value φ :=
  .object [("additionalProperties", .bool false), ("properties", .object (properties schema.fields)),
    ("required", .array (required schema.fields)), ("type", .string "object")]

/-! ## Both readings agree -/

instance : Document (Llm.Value φ) where
  view
    | .null => .null
    | .bool flag => .boolean flag
    | .number _ => .number
    | .string text => .string text
    | .array items => .array items
    | .object map => .object fun key => map.lookup key

theorem kind_eq_object {value : Llm.Value φ} : JsonSchema.kind value = .object ↔ ∃ map, value = .object map := by
  cases value with
  | object map => exact iff_of_true rfl ⟨map, rfl⟩
  | _ => exact iff_of_false nofun nofun

theorem kind_name (value : Llm.Value φ) : (JsonSchema.kind value).name = typeName value := by
  cases value <;> rfl

theorem admits_iff (type : FieldType) (value : Llm.Value φ) : type.admits value = true ↔ typeName value = type.name := by
  cases type <;> cases value <;> simp [FieldType.admits, typeName, FieldType.name]

theorem lookup_isSome {name : String} {arguments : List (String × Llm.Value φ)} :
    (arguments.lookup name).isSome ↔ name ∈ arguments.map Prod.fst := by
  induction arguments with
  | nil => exact iff_of_false nofun nofun
  | cons argument arguments ih =>
    rw [Llm.Value.lookup_cons, List.map_cons, List.mem_cons, ← ih]
    by_cases same : name = argument.1
    · rw [if_pos same]
      exact iff_of_true rfl (.inl same)
    · rw [if_neg same, or_iff_right same]

/-- Among the properties, each field is found under its name. -/
theorem getIn_properties {fields : List Field} (distinct : (fields.map Field.name).Nodup) (name : String)
    (map : List (String × Llm.Value φ)) (fresh : ∀ field ∈ fields, OrdMap.getIn field.name map = none) (sub : Llm.Value φ) :
    OrdMap.getIn name (fields.foldl (fun map field => OrdMap.insertIn field.name (property field) map) map) = some sub ↔
      OrdMap.getIn name map = some sub ∨ ∃ field ∈ fields, field.name = name ∧ property field = sub := by
  induction fields generalizing map with
  | nil => simp
  | cons field fields ih =>
    rw [List.map_cons, List.nodup_cons] at distinct
    rw [List.forall_mem_cons] at fresh
    have apart : ∀ other ∈ fields, other.name ≠ field.name := by
      intro other mem same
      exact distinct.1 (same ▸ List.mem_map_of_mem mem)
    rw [List.foldl_cons, ih distinct.2, OrdMap.getIn_insertIn, List.exists_mem_cons_iff, ← or_assoc]
    · refine or_congr_left ?_
      by_cases same : name = field.name
      · rw [if_pos same, same, fresh.1, Option.some.injEq]
        simp
      · rw [if_neg same]
        simp [Ne.symm same]
    · intro other mem
      rw [OrdMap.getIn_insertIn, if_neg (apart other mem)]
      exact fresh.2 other mem

theorem property_toProviderSchema (schema : Schema) (name : String) (sub : Llm.Value φ) :
    JsonSchema.property schema.toProviderSchema name = some sub ↔
      ∃ field ∈ schema.fields, field.name = name ∧ property field = sub := by
  have found : JsonSchema.property (schema.toProviderSchema : Llm.Value φ) name =
      (properties schema.fields).lookup name := rfl
  rw [found, ← OrdMap.getIn_eq_lookup, properties, getIn_properties schema.distinct name [] (fun _ _ => rfl) sub]
  exact or_iff_right nofun

theorem required_toProviderSchema (schema : Schema) :
    JsonSchema.required (schema.toProviderSchema : Llm.Value φ) = (schema.fields.filter Field.required).map Field.name := by
  have listed : JsonSchema.required (schema.toProviderSchema : Llm.Value φ) =
      (required schema.fields).filterMap (JsonSchema.text (V := Llm.Value φ)) := rfl
  rw [listed, required, List.filterMap_map]
  exact congrFun List.filterMap_eq_map _

/-- A property of the schema describes the values of its type. -/
theorem describes_property_iff {field : Field} {value : Llm.Value φ} :
    Describes (property field) value ↔ field.fieldType.admits value = true := by
  rw [admits_iff, ← kind_name]
  exact JsonSchema.describes_type_iff rfl rfl rfl rfl rfl rfl

/-- The provider's schema describes the objects that validate, and nothing else. -/
theorem describes_iff {schema : Schema} {value : Llm.Value φ} :
    Describes schema.toProviderSchema value ↔ ∃ arguments, value = .object arguments ∧ schema.validate arguments = .ok () := by
  rw [JsonSchema.describes_closed_iff rfl rfl rfl rfl rfl, kind_eq_object]
  simp only [property_toProviderSchema, required_toProviderSchema, validate_eq_ok]
  constructor
  · rintro ⟨⟨arguments, rfl⟩, each, needed⟩
    refine ⟨arguments, rfl, ?_, ?_, ?_⟩
    · intro field mem must
      exact needed field.name (List.mem_map_of_mem (List.mem_filter.2 ⟨mem, must⟩))
    · intro field mem value there
      obtain ⟨sub, ⟨other, mem', same, rfl⟩, described⟩ := each field.name value there
      obtain rfl := List.inj_on_of_nodup_map schema.distinct mem' mem same
      exact describes_property_iff.1 described
    · intro name mem
      obtain ⟨value, there⟩ := Option.isSome_iff_exists.1 (lookup_isSome.2 mem)
      obtain ⟨sub, ⟨field, mem', same, -⟩, -⟩ := each name value there
      exact same ▸ List.mem_map_of_mem mem'
  · rintro ⟨arguments, rfl, accepts⟩
    refine ⟨⟨arguments, rfl⟩, ?_, ?_⟩
    · intro name value there
      have mem : name ∈ arguments.map Prod.fst := lookup_isSome.1 (Option.isSome_iff_exists.2 ⟨value, there⟩)
      obtain ⟨field, mem', rfl⟩ := List.mem_map.1 (accepts.known name mem)
      exact ⟨property field, ⟨field, mem', rfl, rfl⟩, describes_property_iff.2 (accepts.typed field mem' value there)⟩
    · intro name mem
      obtain ⟨field, mem', rfl⟩ := List.mem_map.1 mem
      obtain ⟨there, must⟩ := List.mem_filter.1 mem'
      exact accepts.required field there must

end Schema

end SupraHarness.Tool
