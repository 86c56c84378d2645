import Mathlib.Data.List.ReduceOption
import Mathlib.Data.String.Basic
import SupraHarness.Lib.Hindsight
import SupraHarness.Lib.Results
import SupraHarness.Llm.Scanner
import SupraHarness.Llm.Value

/-!
# Google requests

The body of a Google request, rendered from a conversation. Google's results carry the name of the
function they answer, which a conversation has only with the call; the renderer looks it up under
the identifier of the call in one map of all the calls of the conversation. Providers leave
identifiers out and use them again, and then the calls of one identifier share an entry.
-/
namespace SupraHarness.Llm

variable {φ : Type}

inductive Role where
  | user | assistant
  deriving DecidableEq, Repr

structure Message (φ : Type) where
  role : Role
  content : List (ContentBlock φ)

/-- What the renderer reads of a request. -/
structure Request (φ : Type) where
  messages : List (Message φ)
  tools : List String
  thinking : Thinking

def Thinking.enabled (thinking : Thinking) : Bool := 0 < thinking.budgetTokens

/-- The names of the calls of the conversation, by identifier. -/
def functionNames (messages : List (Message φ)) : OrdMap String String :=
  messages.foldl (fun names message =>
    if message.role ≠ .assistant then names
    else message.content.foldl (fun names block =>
      match block with
      | .toolUse id name _ => names.insert id name
      | _ => names) names) .empty

/-- The entry of an identifier, which an empty one does not get. -/
def idEntry (id : String) : List (String × Value φ) := if id = "" then [] else [("id", .string id)]

/-- The part a block is rendered to, if it is. -/
def renderPart (names : OrdMap String String) :
    ContentBlock φ → Except CanonicalError (Option (Value φ))
  | .text text _ => .ok (some (.object [("text", .string text)]))
  | .toolUse id name input =>
    .ok (some (.object [("functionCall",
      .object ([("args", input)] ++ idEntry id ++ [("name", .string name)]))]))
  | .toolResult toolUseId content _ =>
    match names.get toolUseId with
    | none => .error (.invalid s!"Google tool result {debug toolUseId} has no matching function call")
    | some name =>
      .ok (some (.object [("functionResponse",
        .object (idEntry toolUseId ++ [("name", .string name), ("response", content)]))]))
  | .thinking _ _ => .ok none
  | .redactedThinking _ => .ok none
  | .unknown _ => .ok none

def googleRole : Role → String
  | .user => "user"
  | .assistant => "model"

def renderContent (names : OrdMap String String) (message : Message φ) :
    Except CanonicalError (Value φ) := do
  let parts ← message.content.mapM (renderPart names)
  .ok (.object [("parts", .array parts.reduceOption), ("role", .string (googleRole message.role))])

/-- The contents of the body. -/
def googleContents (messages : List (Message φ)) : Except CanonicalError (List (Value φ)) :=
  messages.mapM (renderContent (functionNames messages))

section Body
variable (fromStr : String → Except String (Value φ))

def toolsValue (tools : List String) : Except CanonicalError (List (Value φ)) :=
  tools.mapM fun tool => (fromStr tool).mapError .invalid

/-- A declaration with its schema under the name Google has for it. -/
def googleDeclaration : Value φ → Except CanonicalError (Value φ)
  | .object map =>
    match map.lookup "input_schema" with
    | none => .ok (.object map)
    | some schema =>
      .ok (.object (OrdMap.insertIn "parameters" schema (map.filter fun entry => entry.1 ≠ "input_schema")))
  | _ => .error (.invalid "Google tool declaration is not an object")

def googleToolsValue (tools : List String) : Except CanonicalError (List (Value φ)) := do
  let declarations ← toolsValue fromStr tools
  declarations.mapM googleDeclaration

/-- The entry of the tools, when there are any. -/
def putTools (tools : List String) (body : OrdMap String (Value φ)) :
    Except CanonicalError (OrdMap String (Value φ)) :=
  if tools.isEmpty then .ok body
  else do
    let declarations ← googleToolsValue fromStr tools
    .ok (body.insert "tools" (.array [.object [("functionDeclarations", .array declarations)]]))

/-- The entry of the thinking budget, when there is one. -/
def putThinking (thinking : Thinking) (body : OrdMap String (Value φ)) : OrdMap String (Value φ) :=
  if thinking.enabled then
    body.insert "generationConfig" (.object [("thinkingConfig",
      .object [("thinkingBudget", .number (.posInt thinking.budgetTokens.toUInt64))])])
  else body

/-- The entries of the body of a Google request, put in beside those that are there. -/
def renderGoogle (request : Request φ) (body : OrdMap String (Value φ)) :
    Except CanonicalError (OrdMap String (Value φ)) := do
  let contents ← googleContents request.messages
  let body ← putTools fromStr request.tools (body.insert "contents" (.array contents))
  .ok (putThinking request.thinking body)

theorem get_putTools {tools : List String} {body body' : OrdMap String (Value φ)}
    (h : putTools fromStr tools body = .ok body') : body'.get "contents" = body.get "contents" := by
  rw [putTools] at h
  by_cases htools : tools.isEmpty = true
  · rw [if_pos htools] at h
    cases h
    rfl
  · rw [if_neg htools] at h
    obtain ⟨declarations, -, h⟩ := Results.bind_eq_ok.mp h
    cases h
    rw [OrdMap.get_insert, if_neg (by decide)]

theorem get_putThinking (thinking : Thinking) (body : OrdMap String (Value φ)) :
    (putThinking thinking body).get "contents" = body.get "contents" := by
  rw [putThinking]
  by_cases h : thinking.enabled = true
  · rw [if_pos h, OrdMap.get_insert, if_neg (by decide)]
  · rw [if_neg h]

/-- A rendered body has the rendered contents. -/
theorem get_contents {request : Request φ} {body body' : OrdMap String (Value φ)}
    {contents : List (Value φ)} (hcontents : googleContents request.messages = .ok contents)
    (h : renderGoogle fromStr request body = .ok body') :
    body'.get "contents" = some (.array contents) := by
  rw [renderGoogle, hcontents] at h
  obtain ⟨_, hsame, h⟩ := Results.bind_eq_ok.mp h
  cases hsame
  obtain ⟨tooled, htools, h⟩ := Results.bind_eq_ok.mp h
  cases h
  rw [get_putThinking, get_putTools fromStr htools, OrdMap.get_insert, if_pos rfl]

end Body

/-! ## Calls and results -/

/-- A call of the model is a write of its name, and a result a read. -/
def accessOf (role : Role) : ContentBlock φ → Option (Access String String)
  | .toolUse id name _ => if role ≠ .assistant then none else some (.write id name)
  | .toolResult toolUseId _ _ => some (.read toolUseId)
  | _ => none

/-- The calls and results of a conversation, in order. -/
def accesses (messages : List (Message φ)) : List (Access String String) :=
  messages.flatMap fun message => message.content.filterMap (accessOf message.role)

/-- The name a rendered result has. -/
def responseName (part : Value φ) : Option (Option String) :=
  (part.get "functionResponse").map fun response => (response.get "name").bind Value.asStr

/-- The names of the results in rendered contents, in order. -/
def responseNames (contents : List (Value φ)) : List (Option String) :=
  contents.flatMap fun content =>
    (((content.get "parts").bind Value.asArray).getD []).filterMap responseName

theorem functionNames_eq (messages : List (Message φ)) :
    functionNames messages = Access.record .empty (accesses messages) := by
  rw [functionNames, accesses]
  generalize (OrdMap.empty : OrdMap String String) = names
  induction messages generalizing names with
  | nil => rfl
  | cons message messages ih =>
    rw [List.foldl_cons, List.flatMap_cons, Access.record, List.foldl_append]
    change _ = Access.record (Access.record names _) _
    rw [← ih]
    congr 1
    obtain ⟨role, content⟩ := message
    by_cases hrole : role = .assistant
    · subst hrole
      simp only [ne_eq, not_true_eq_false, if_false]
      induction content generalizing names with
      | nil => rfl
      | cons block content ihc => cases block <;> exact ihc _
    · simp only [ne_eq, hrole, not_false_eq_true, if_true]
      induction content generalizing names with
      | nil => rfl
      | cons block content ihc =>
        cases block with
        | toolUse id name input =>
          rw [List.filterMap_cons_none (by simp [accessOf, hrole])]
          exact ihc names
        | _ => exact ihc names

/-- What a block is labelled, where every result has a name in the map. -/
theorem renderPart_ok (names : OrdMap String String) (role : Role) (block : ContentBlock φ)
    (h : ∀ id, (accessOf role block).bind Access.asked = some id → (names.get id).isSome = true) :
    ∃ part, renderPart names block = .ok part ∧
      part.bind responseName = ((accessOf role block).bind Access.asked).map names.get := by
  cases block with
  | text text citations => exact ⟨_, rfl, by simp [responseName, Value.get, accessOf]⟩
  | toolUse id name input =>
    refine ⟨_, rfl, ?_⟩
    simp only [accessOf]
    split_ifs <;> simp [responseName, Value.get, Access.asked]
  | toolResult toolUseId content isError =>
    obtain ⟨name, hname⟩ := Option.isSome_iff_exists.mp (h toolUseId rfl)
    refine ⟨_, by rw [renderPart, hname], ?_⟩
    rw [accessOf, idEntry]
    split_ifs <;> simp [responseName, Value.get, Access.asked, Value.asStr, List.lookup_cons, hname]
  | thinking thinking signature => exact ⟨none, rfl, rfl⟩
  | redactedThinking data => exact ⟨none, rfl, rfl⟩
  | unknown raw => exact ⟨none, rfl, rfl⟩

theorem filterMap_reduceOption {α β : Type} (f : α → Option β) (l : List (Option α)) :
    l.reduceOption.filterMap f = l.filterMap (·.bind f) := by
  rw [List.reduceOption, List.filterMap_filterMap]
  rfl

theorem renderParts_ok {names : OrdMap String String} {role : Role} (content : List (ContentBlock φ))
    (h : ∀ id ∈ (content.filterMap (accessOf role)).filterMap Access.asked, (names.get id).isSome = true) :
    ∃ parts, content.mapM (renderPart names) = .ok parts ∧
      parts.reduceOption.filterMap responseName =
        ((content.filterMap (accessOf role)).filterMap Access.asked).map names.get := by
  rw [List.filterMap_filterMap] at h ⊢
  induction content with
  | nil => exact ⟨[], rfl, rfl⟩
  | cons block content ih =>
    obtain ⟨part, hpart, hlabel⟩ := renderPart_ok names role block fun id hid =>
      h id (List.mem_filterMap.mpr ⟨block, List.mem_cons_self, hid⟩)
    obtain ⟨parts, hparts, hlabels⟩ := ih fun id hid => by
      obtain ⟨other, hmem, hid⟩ := List.mem_filterMap.mp hid
      exact h id (List.mem_filterMap.mpr ⟨other, List.mem_cons_of_mem _ hmem, hid⟩)
    refine ⟨part :: parts, by rw [List.mapM_cons, hpart, hparts]; rfl, ?_⟩
    rw [filterMap_reduceOption] at hlabels ⊢
    rw [List.filterMap_cons, List.filterMap_cons, hlabel, hlabels]
    cases (accessOf role block).bind Access.asked <;> rfl

/-- Where every result has a name in the map, the contents are rendered with those names. -/
theorem renderContents_ok (names : OrdMap String String) (messages : List (Message φ))
    (h : ∀ id ∈ (accesses messages).filterMap Access.asked, (names.get id).isSome = true) :
    ∃ contents, messages.mapM (renderContent names) = .ok contents ∧
      responseNames contents = ((accesses messages).filterMap Access.asked).map names.get := by
  induction messages with
  | nil => exact ⟨[], rfl, rfl⟩
  | cons message messages ih =>
    rw [accesses, List.flatMap_cons, List.filterMap_append] at h ⊢
    obtain ⟨parts, hparts, hlabel⟩ := renderParts_ok message.content fun id hid =>
      h id (List.mem_append_left _ hid)
    obtain ⟨contents, hcontents, hlabels⟩ := ih fun id hid => h id (List.mem_append_right _ hid)
    refine ⟨_ :: contents, by rw [List.mapM_cons, renderContent, hparts, hcontents]; rfl, ?_⟩
    rw [responseNames, List.flatMap_cons, List.map_append, ← hlabel]
    exact congrArg (_ ++ ·) hlabels

/-- In a conversation whose results all answer earlier calls, each rendered result has the name of
the latest call before it with its identifier exactly where no later call changes that name. -/
theorem renderGoogle_names_iff (fromStr : String → Except String (Value φ)) (request : Request φ)
    (body : OrdMap String (Value φ)) (h : Access.Answered (accesses request.messages)) :
    ∃ contents, googleContents request.messages = .ok contents ∧
      (∀ body', renderGoogle fromStr request body = .ok body' →
        body'.get "contents" = some (.array contents)) ∧
      (responseNames contents = Access.answers (accesses request.messages) ↔
        Access.Settled (accesses request.messages)) := by
  have hget : ∀ id, (functionNames request.messages).get id =
      Access.latest id (accesses request.messages) := by
    intro id
    rw [functionNames_eq, Access.get_record]
  obtain ⟨contents, hcontents, hnames⟩ := renderContents_ok (functionNames request.messages) request.messages
    fun id hid => hget id ▸ h.found hid
  refine ⟨contents, hcontents, fun body' hbody => get_contents fromStr hcontents hbody, ?_⟩
  rw [← Access.answers_eq_hindsight_iff, hnames, funext hget]
  exact eq_comm

/-- Two turns whose calls the provider gave no identifiers. -/
def unnamedTurns : List (Message Unit) :=
  [⟨.assistant, [.toolUse "" "get_weather" (.object [])]⟩,
   ⟨.user, [.toolResult "" (.string "sunny") false]⟩,
   ⟨.assistant, [.toolUse "" "get_time" (.object [])]⟩,
   ⟨.user, [.toolResult "" (.string "noon") false]⟩]

/-- The first result is labelled with the second call. -/
theorem renderGoogle_mislabels :
    Access.Answered (accesses unnamedTurns) ∧
      ∃ contents, googleContents unnamedTurns = .ok contents ∧
        responseNames contents = [some "get_time", some "get_time"] ∧
        Access.answers (accesses unnamedTurns) = [some "get_weather", some "get_time"] :=
  ⟨by decide, _, rfl, by decide, by decide⟩

theorem renderGoogle_names_iff_unnamed :
    let request : Request Unit := ⟨unnamedTurns, [], ⟨0⟩⟩
    let fromStr : String → Except String (Value Unit) := fun _ => .error "expected value"
    ∃ contents, googleContents request.messages = .ok contents ∧
      (∀ body', renderGoogle fromStr request .empty = .ok body' →
        body'.get "contents" = some (.array contents)) ∧
      (responseNames contents = Access.answers (accesses request.messages) ↔
        Access.Settled (accesses request.messages)) :=
  renderGoogle_names_iff _ ⟨unnamedTurns, [], ⟨0⟩⟩ _ (by decide)

end SupraHarness.Llm
