import SupraHarness.Lib.Results
import SupraHarness.Llm.Canonical
import SupraHarness.Tool.Schema

/-!
# The tool registry

The registered tools by their names, and what a call of one must get past: the name, the session's disabled
tools, the canonical form of the arguments, the schema and the precondition. Arguments come as text, or as
the value that was read from it.
-/
namespace SupraHarness.Tool

open JsonSchema (Describes)
open Results (bind_eq_ok bind_eq_error mapError_eq_ok)

/-- Who may invoke a tool. -/
inductive ToolClass where
  | agent
  | host
  | user
  deriving DecidableEq, Repr

/-- Why a recoverable edit is recoverable. -/
inductive RecoveryBasis where
  | snapshot
  | gitClean
  deriving DecidableEq, Repr

/-- What a call is about to do. -/
inductive Effect where
  | read
  | scratchWork
  | recoverableEdit (basis : RecoveryBasis)
  | structuralEdit (basis : RecoveryBasis)
  | blindEdit
  | outsideEdit (path : String)
  | networkPost (target : String)
  | forcePush (target : String)
  | remove (target : String)
  | dropData (target : String)
  | escapeHatch (what : String)
  deriving DecidableEq, Repr

/-- The files read in the session, as a set. -/
structure SessionFacts where
  filesRead : List String
  deriving Repr

/-- The entries of an argument object, in the order of the map. -/
abbrev Arguments (φ : Type) := List (String × Llm.Value φ)

variable {φ : Type}

/-! ## Tools -/

structure Precondition (φ : Type) where
  fields : List String
  check : Arguments φ → SessionFacts → Except ToolError Unit

/-- A file must have been read before it is edited. -/
def Precondition.readBeforeEdit (numbered : Char → Bool) : Precondition φ where
  fields := ["path"]
  check arguments facts :=
    let path := ((arguments.lookup "path").bind Llm.Value.asStr).getD ""
    if path ∈ facts.filesRead then .ok ()
    else .error (.preconditionFailed s!"read_file {debug numbered path} before editing it"
      "edit_file requires the file to have been read this session")

/-- A tool with the schema that was built for it. -/
structure Tool (φ : Type) where
  name : String
  toolClass : ToolClass
  schema : Schema
  resolver : Arguments φ → Effect
  precondition : Option (Precondition φ)
  own : schema.tool = name

namespace Tool

theorem build_tool {numbered : Char → Bool} {name : String} {fields : List Field} {schema : Schema}
    (built : Schema.build numbered name fields = .ok schema) : schema.tool = name := by
  unfold Schema.build at built
  split at built
  · cases built
  · rw [← Except.ok.inj built]

def register (numbered : Char → Bool) (name : String) (toolClass : ToolClass) (fields : List Field)
    (resolver : Arguments φ → Effect) : Except ToolError (Tool φ) :=
  match built : Schema.build numbered name fields with
  | .error error => .error error
  | .ok schema => .ok ⟨name, toolClass, schema, resolver, none, build_tool built⟩

def withPrecondition (tool : Tool φ) (precondition : Precondition φ) : Tool φ :=
  { tool with precondition := some precondition }

/-- What the provider is told of the tool. -/
def toManifest (tool : Tool φ) (description : String) : Llm.Value φ :=
  .object [("description", .string description), ("input_schema", tool.schema.toProviderSchema),
    ("name", .string tool.name)]

def checkPrecondition (tool : Tool φ) (arguments : Arguments φ) (facts : SessionFacts) : Except ToolError Unit :=
  match tool.precondition with
  | some precondition => precondition.check arguments facts
  | none => .ok ()

end Tool

/-! ## The registry -/

/-- Each tool stands under its own name, and what is disabled is registered. -/
structure Registry (φ : Type) where
  tools : OrdMap String (Tool φ)
  disabled : List String
  named : ∀ entry ∈ tools.entries, entry.2.name = entry.1
  known : ∀ name ∈ disabled, (tools.get name).isSome

/-- A validated call. -/
structure Invocation where
  tool : String
  toolClass : ToolClass
  arguments : String
  effect : Effect
  deriving DecidableEq, Repr

namespace Registry

def new : Registry φ := ⟨.empty, [], nofun, nofun⟩

/-- The names, sorted. -/
def names (registry : Registry φ) : List String := registry.tools.keys

def register (registry : Registry φ) (tool : Tool φ) : Registry φ × Except ToolError Unit :=
  if registry.tools.get tool.name |>.isSome then
    (registry, .error (.unknownTool tool.name [s!"{tool.name} is already registered"]))
  else
    ({ registry with
        tools := registry.tools.insert tool.name tool
        named := by
          intro entry mem
          rcases OrdMap.mem_insertIn mem with rfl | old
          · rfl
          · exact registry.named entry old
        known := by
          intro name mem
          rw [OrdMap.get_insert]
          split_ifs
          · rfl
          · exact registry.known name mem }, .ok ())

def disable (registry : Registry φ) (name : String) : Registry φ × Except ToolError Unit :=
  if there : (registry.tools.get name).isSome then
    ({ registry with
        disabled := registry.disabled.insert name
        known := by
          intro other mem
          rcases List.mem_insert_iff.1 mem with rfl | old
          · exact there
          · exact registry.known other old }, .ok ())
  else (registry, .error (.unknownTool name registry.names))

/-- Some calls of `disable`. -/
def disableAll (registry : Registry φ) (names : List String) : Registry φ :=
  names.foldl (fun registry name => (registry.disable name).1) registry

/-- What the provider is told of the tools, disabled or not. -/
def manifest (registry : Registry φ) (descriptions : OrdMap String String) : List (Llm.Value φ) :=
  registry.tools.entries.map fun entry => entry.2.toManifest ((descriptions.get entry.2.name).getD "")

def availableTool (registry : Registry φ) (name : String) : Except ToolError (Tool φ) :=
  match registry.tools.get name with
  | none => .error (.unknownTool name registry.names)
  | some tool => if name ∈ registry.disabled then .error (.disabled name) else .ok tool

def finishInvocation (tool : Tool φ) (name : String) (arguments : Llm.Value φ) (canonical : String)
    (facts : SessionFacts) : Except ToolError Invocation :=
  match arguments with
  | .object map => do
    tool.schema.validate map
    tool.checkPrecondition map facts
    .ok ⟨name, tool.toolClass, canonical, tool.resolver map⟩
  | _ => .error (.badArguments name "not an object")

/-- How a call of text ends that is not admitted: it is refused, or the scanner does not return. -/
inductive Stop where
  | refused (error : ToolError)
  | panic
  | exhausted
  deriving DecidableEq, Repr

section

variable (numbered : Char → Bool) (showFloat : φ → List Char) (fromStr : String → Except String (Llm.Value φ))

def Stop.ofScan : Llm.Stop → Stop
  | .err error => .refused (.ofCanonical numbered error)
  | .panic => .panic
  | .exhausted => .exhausted

def invoke (registry : Registry φ) (name arguments : String) (facts : SessionFacts) : Except Stop Invocation := do
  let tool ← (registry.availableTool name).mapError .refused
  let canonical ← (Llm.canonicalize showFloat fromStr arguments).mapError (.ofScan numbered)
  let parsed ← (Llm.parseStrict fromStr arguments).mapError (.ofScan numbered)
  (finishInvocation tool name parsed canonical facts).mapError .refused

def invokeValue (registry : Registry φ) (name : String) (arguments : Llm.Value φ) (facts : SessionFacts) :
    Except ToolError Invocation := do
  let tool ← registry.availableTool name
  let canonical ← (Llm.canonicalizeValue showFloat arguments).mapError (.ofCanonical numbered)
  finishInvocation tool name arguments canonical facts

/-- A call that is admitted, and what it is then: the tool is registered and not disabled, the arguments are
an object with a canonical form that the schema accepts, and the precondition holds. -/
inductive Admitted (registry : Registry φ) (name : String) (value : Llm.Value φ) (facts : SessionFacts) :
    Invocation → Prop where
  | intro {tool : Tool φ} {arguments : Arguments φ} {canonical : String} (registered : registry.tools.get name = some tool)
      (enabled : name ∉ registry.disabled) (object : value = .object arguments)
      (canonical_ : Llm.canonicalizeValue showFloat value = .ok canonical)
      (accepted : tool.schema.validate arguments = .ok ()) (ready : tool.checkPrecondition arguments facts = .ok ()) :
      Admitted registry name value facts ⟨name, tool.toolClass, canonical, tool.resolver arguments⟩

variable {numbered showFloat fromStr} {registry : Registry φ} {name text : String} {value : Llm.Value φ}
  {facts : SessionFacts} {invocation : Invocation}

/-! ## The two entries agree -/

theorem canonicalize_of_parsed (parsed : Llm.parseStrict fromStr text = .ok value) :
    Llm.canonicalize showFloat fromStr text = (Llm.canonicalizeValue showFloat value).mapError .err := by
  rw [Llm.canonicalize, parsed, Llm.canonicalizeValue]
  cases checked : Llm.check "$" value with
  | error error => simp only [bind, Except.bind, checked, Except.mapError]
  | ok _ => simp only [bind, Except.bind, checked, Except.mapError]

/-- A call of a text ends as that of the value that is read from it, and in the same refusal. -/
theorem invoke_of_parsed (parsed : Llm.parseStrict fromStr text = .ok value) :
    registry.invoke numbered showFloat fromStr name text facts =
      (registry.invokeValue numbered showFloat name value facts).mapError .refused := by
  rw [invoke, invokeValue, canonicalize_of_parsed parsed, parsed]
  cases registry.availableTool name with
  | error error => rfl
  | ok tool =>
    cases Llm.canonicalizeValue showFloat value with
    | error error => rfl
    | ok canonical => rfl

/-- A text that is not read is not admitted. -/
theorem parsed_of_invoke (invoked : registry.invoke numbered showFloat fromStr name text facts = .ok invocation) :
    ∃ value, Llm.parseStrict fromStr text = .ok value := by
  cases parsed : Llm.parseStrict fromStr text with
  | ok value => exact ⟨value, rfl⟩
  | error stop =>
    rw [invoke, bind_eq_ok] at invoked
    obtain ⟨tool, -, invoked⟩ := invoked
    rw [Llm.canonicalize, parsed] at invoked
    cases invoked

/-! ## What is admitted -/

theorem availableTool_eq_ok {tool : Tool φ} :
    registry.availableTool name = .ok tool ↔ registry.tools.get name = some tool ∧ name ∉ registry.disabled := by
  rw [availableTool]
  cases registry.tools.get name with
  | none => exact iff_of_false nofun fun both => nomatch both.1
  | some found =>
    by_cases off : name ∈ registry.disabled
    · simp [off]
    · simp [off]

/-- The schema of a tool is of the name it is registered under. -/
theorem tool_of_get {tool : Tool φ} (registered : registry.tools.get name = some tool) : tool.schema.tool = name :=
  tool.own.trans (registry.named (name, tool) (OrdMap.get_eq_some.1 registered))

theorem finishInvocation_eq_ok {tool : Tool φ} {canonical : String} :
    finishInvocation tool name value canonical facts = .ok invocation ↔
      ∃ arguments, value = .object arguments ∧ tool.schema.validate arguments = .ok () ∧
        tool.checkPrecondition arguments facts = .ok () ∧
          invocation = ⟨name, tool.toolClass, canonical, tool.resolver arguments⟩ := by
  cases value with
  | object arguments =>
    rw [finishInvocation, bind_eq_ok]
    simp only [bind_eq_ok, Llm.Value.object.injEq, exists_eq_left', Except.ok.injEq]
    constructor
    · rintro ⟨_, accepted, _, ready, equal⟩
      exact ⟨accepted, ready, equal.symm⟩
    · rintro ⟨accepted, ready, equal⟩
      exact ⟨(), accepted, (), ready, equal.symm⟩
  | _ => exact iff_of_false nofun (by rintro ⟨_, ⟨⟩, _⟩)

theorem invokeValue_eq_ok :
    registry.invokeValue numbered showFloat name value facts = .ok invocation ↔
      Admitted showFloat registry name value facts invocation := by
  rw [invokeValue, bind_eq_ok]
  simp only [bind_eq_ok, mapError_eq_ok, availableTool_eq_ok, finishInvocation_eq_ok]
  constructor
  · rintro ⟨tool, ⟨registered, enabled⟩, canonical, canonical_, arguments, object, accepted, ready, rfl⟩
    exact .intro registered enabled object canonical_ accepted ready
  · rintro ⟨registered, enabled, object, canonical_, accepted, ready⟩
    exact ⟨_, ⟨registered, enabled⟩, _, canonical_, _, object, accepted, ready, rfl⟩

theorem invoke_eq_ok :
    registry.invoke numbered showFloat fromStr name text facts = .ok invocation ↔
      ∃ value, Llm.parseStrict fromStr text = .ok value ∧ Admitted showFloat registry name value facts invocation := by
  constructor
  · intro invoked
    obtain ⟨value, parsed⟩ := parsed_of_invoke invoked
    rw [invoke_of_parsed parsed, mapError_eq_ok, invokeValue_eq_ok] at invoked
    exact ⟨value, parsed, invoked⟩
  · rintro ⟨value, parsed, admitted⟩
    rw [invoke_of_parsed parsed, mapError_eq_ok, invokeValue_eq_ok]
    exact admitted

/-- Arguments in canonical form are refused for their shape, by the schema for a field of the called tool, or
by the precondition. -/
theorem invokeValue_refused {tool : Tool φ} {error : ToolError} {canonical : String}
    (available : registry.availableTool name = .ok tool)
    (canonical_ : Llm.canonicalizeValue showFloat value = .ok canonical)
    (refused : registry.invokeValue numbered showFloat name value facts = .error error) :
    error = .badArguments name "not an object" ∨ ∃ arguments, value = .object arguments ∧
      (Schema.Refuses name tool.schema.fields arguments error ∨ tool.checkPrecondition arguments facts = .error error) := by
  rw [invokeValue, available, canonical_] at refused
  obtain refused : finishInvocation tool name value canonical facts = .error error := refused
  cases value with
  | object arguments =>
    refine .inr ⟨arguments, rfl, ?_⟩
    rw [finishInvocation, bind_eq_error] at refused
    rcases refused with invalid | ⟨_, -, refused⟩
    · rw [← tool_of_get (availableTool_eq_ok.1 available).1]
      exact .inl (Schema.refuses_of_validate invalid)
    · rw [bind_eq_error] at refused
      rcases refused with unready | ⟨_, -, done⟩
      · exact .inr unready
      · cases done
  | _ => exact .inl (Except.error.inj refused).symm

/-! ## Disabling -/

theorem tools_disable : (registry.disable name).1.tools = registry.tools := by
  rw [disable]
  split_ifs <;> rfl

theorem tools_disableAll (names : List String) : (registry.disableAll names).tools = registry.tools := by
  induction names generalizing registry with
  | nil => rfl
  | cons name names ih =>
    change ((registry.disable name).1.disableAll names).tools = _
    rw [ih, tools_disable]

/-- Disabling tools leaves what the provider is told of them. -/
theorem manifest_disableAll (names : List String) (descriptions : OrdMap String String) :
    (registry.disableAll names).manifest descriptions = registry.manifest descriptions := by
  rw [manifest, manifest, tools_disableAll]

end

/-- The text of a call and its value are admitted alike, and exactly as they should be; what a tool takes is
what the provider is told that it takes, whatever is disabled. -/
theorem calls_admitted (numbered : Char → Bool) (showFloat : φ → List Char)
    (fromStr : String → Except String (Llm.Value φ)) (registry : Registry φ) :
    (∀ name text facts, match Llm.parseStrict fromStr text with
      | .ok value => registry.invoke numbered showFloat fromStr name text facts =
          (registry.invokeValue numbered showFloat name value facts).mapError .refused
      | .error _ => ∀ invocation, registry.invoke numbered showFloat fromStr name text facts ≠ .ok invocation) ∧
    (∀ name text facts invocation, registry.invoke numbered showFloat fromStr name text facts = .ok invocation ↔
      ∃ value, Llm.parseStrict fromStr text = .ok value ∧ Admitted showFloat registry name value facts invocation) ∧
    (∀ name value facts invocation, registry.invokeValue numbered showFloat name value facts = .ok invocation ↔
      Admitted showFloat registry name value facts invocation) ∧
    (∀ name, ∀ tool ∈ registry.tools.get name, ∀ value : Llm.Value φ, Describes tool.schema.toProviderSchema value ↔
      ∃ arguments, value = .object arguments ∧ tool.schema.validate arguments = .ok ()) ∧
    ∀ names descriptions, (registry.disableAll names).manifest descriptions = registry.manifest descriptions := by
  refine ⟨?_, fun _ _ _ _ => invoke_eq_ok, fun _ _ _ _ => invokeValue_eq_ok, ?_, manifest_disableAll⟩
  · intro name text facts
    cases parsed : Llm.parseStrict fromStr text with
    | ok value => exact invoke_of_parsed parsed
    | error stop =>
      intro invocation invoked
      obtain ⟨value, read⟩ := parsed_of_invoke invoked
      rw [parsed] at read
      cases read
  · intro name tool _ value
    exact Schema.describes_iff

end Registry

end SupraHarness.Tool
