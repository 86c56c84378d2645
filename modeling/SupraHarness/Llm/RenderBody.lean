import Mathlib.Data.List.ModifyLast
import SupraHarness.Llm.RenderGoogle
import SupraHarness.Llm.Wire
import SupraHarness.Prompt.Breakpoints

/-!
# Request bodies

The body of a request to each of the three providers, as canonical JSON. An Anthropic body carries the
conversation as it is, and a cache marker in the last tool and in the last block of the conversation
where the breakpoints there are among those the provider takes.
-/
namespace SupraHarness.Llm

open Results (bind_eq_ok)
open SupraHarness.Prompt (Breakpoint CacheTtl)

variable {φ : Type}

inductive ProviderKind where
  | anthropic | openAI | google
  deriving DecidableEq, Repr

/-- What rendering asks of a cache policy. -/
structure CachePolicy where
  kind : ProviderKind
  maxBreakpoints : Nat
  explicitTtl : Bool
  deriving DecidableEq, Repr

def CachePolicy.forKind : ProviderKind → CachePolicy
  | .anthropic => ⟨.anthropic, 4, true⟩
  | .openAI => ⟨.openAI, 1, false⟩
  | .google => ⟨.google, 1, false⟩

def CachePolicy.ttlFor (policy : CachePolicy) (breakpoint : Breakpoint) : CacheTtl :=
  if policy.explicitTtl then breakpoint.ttl else .fiveMinutes

/-- A request with the provider it names and the breakpoints planned for it. -/
structure PlannedRequest (φ : Type) extends Request φ where
  provider : ProviderKind
  breakpoints : List Breakpoint

def PlannedRequest.effectiveBreakpoints (request : PlannedRequest φ) : List Breakpoint :=
  request.breakpoints.take (CachePolicy.forKind request.provider).maxBreakpoints

structure Client where
  policy : CachePolicy
  model : String
  deriving DecidableEq, Repr

/-! ## Messages and tools -/

def roleName : Role → String
  | .user => "user"
  | .assistant => "assistant"

def messageValue (message : Message φ) : Value φ :=
  .object [("content", .array (message.content.map ContentBlock.wireValue)), ("role", .string (roleName message.role))]

def messagesValue (messages : List (Message φ)) : Value φ := .array (messages.map messageValue)

/-- The entry of the tools, when there are any and all of them are read. -/
def putReadTools (fromStr : String → Except String (Value φ)) (tools : List String) (body : OrdMap String (Value φ)) :
    OrdMap String (Value φ) :=
  if tools.isEmpty then body
  else
    match toolsValue fromStr tools with
    | .ok tools => body.insert "tools" (.array tools)
    | .error _ => body

/-! ## Thinking -/

/-- The family stands in the text between characters that belong to no name. It does not overlap with
itself, so that the first of two matches hides no other. -/
def modelFamilyMatches (family : List Char) (before : Option Char) : List Char → Bool
  | [] => false
  | c :: text =>
    (family.isPrefixOf (c :: text) && !before.any Char.isAlphanum &&
      !((c :: text).drop family.length).head?.any Char.isAlphanum) ||
    modelFamilyMatches family (some c) text

def adaptiveFamilies : List String :=
  ["claude-opus-5", "claude-sonnet-5", "claude-fable-5", "claude-opus-4-8", "claude-opus-4-7", "claude-opus-4-6",
    "claude-sonnet-4-6"]

def anthropicSupportsAdaptiveThinking (model : String) : Bool :=
  adaptiveFamilies.any fun family => modelFamilyMatches family.toList none (model.toList.map Char.toLower)

def thinkingValue (model : String) (thinking : Thinking) : Value φ :=
  if anthropicSupportsAdaptiveThinking model then .object [("type", .string "adaptive")]
  else .object [("budget_tokens", .number (.posInt thinking.budgetTokens.toUInt64)), ("type", .string "enabled")]

/-! ## Cache markers -/

def ttlName : CacheTtl → String
  | .oneHour => "1h"
  | .fiveMinutes => "5m"

def cacheControl (breakpoint : Breakpoint) : Value φ :=
  .object [("ttl", .string (ttlName ((CachePolicy.forKind .anthropic).ttlFor breakpoint))), ("type", .string "ephemeral")]

namespace Value

/-- `get_mut` with a key. -/
def modifyEntry (value : Value φ) (key : String) (f : Value φ → Value φ) : Value φ :=
  match value.get key with
  | none => value
  | some item => value.putEntry key (f item)

/-- `last_mut`. -/
def modifyLast (value : Value φ) (f : Value φ → Value φ) : Value φ :=
  match value with
  | array items => array (items.modifyLast f)
  | value => value

end Value

/-- `get_mut` of the body. -/
def modifyBody (body : OrdMap String (Value φ)) (key : String) (f : Value φ → Value φ) : OrdMap String (Value φ) :=
  match body.get key with
  | none => body
  | some value => body.insert key (f value)

/-- The last tool with a marker. -/
def markTools (marker tools : Value φ) : Value φ := tools.modifyLast fun tool => tool.putEntry "cache_control" marker

/-- The last block of the last message with a marker. -/
def markMessages (marker messages : Value φ) : Value φ :=
  messages.modifyLast fun message => message.modifyEntry "content" fun content =>
    content.modifyLast fun block => block.putEntry "cache_control" marker

/-- A request has no system contract and no memory index of its own, so that nothing is marked there. -/
def applyCacheControl (body : OrdMap String (Value φ)) (breakpoint : Breakpoint) : OrdMap String (Value φ) :=
  match breakpoint with
  | .bp1Tools => modifyBody body "tools" (markTools (cacheControl breakpoint))
  | .bp2System => body
  | .bp3MemoryIndex => body
  | .bp4PreviousTurn => modifyBody body "messages" (markMessages (cacheControl breakpoint))

def applyAnthropicCacheControls (request : PlannedRequest φ) (body : OrdMap String (Value φ)) :
    OrdMap String (Value φ) :=
  request.effectiveBreakpoints.foldl applyCacheControl body

/-! ## Bodies -/

section

variable (fromStr : String → Except String (Value φ))

def putAnthropicThinking (thinking : Thinking) (body : OrdMap String (Value φ)) : OrdMap String (Value φ) :=
  if thinking.enabled then
    body.insert "thinking" (thinkingValue (((body.get "model").bind Value.asStr).getD "") thinking)
  else body

def renderAnthropic (request : PlannedRequest φ) (body : OrdMap String (Value φ)) : OrdMap String (Value φ) :=
  let body := body.insert "max_tokens" (.number (.posInt 32000))
  let body := body.insert "stream" (.bool true)
  let body := body.insert "messages" (messagesValue request.messages)
  let body := putReadTools fromStr request.tools body
  applyAnthropicCacheControls request (putAnthropicThinking request.thinking body)

def renderOpenai (request : PlannedRequest φ) (body : OrdMap String (Value φ)) : OrdMap String (Value φ) :=
  let body := body.insert "messages" (messagesValue request.messages)
  let body := putReadTools fromStr request.tools body
  let body := if request.thinking.enabled then body.insert "reasoning_effort" (.string "medium") else body
  body.insert "prompt_cache_key" (.string "supra-prefix")

/-- The entries of a body, before it is made canonical. -/
def Client.body (client : Client) (request : PlannedRequest φ) : Except CanonicalError (OrdMap String (Value φ)) :=
  let body := OrdMap.empty.insert "model" (.string client.model)
  match client.policy.kind with
  | .anthropic => .ok (renderAnthropic fromStr request body)
  | .openAI => .ok (renderOpenai fromStr request body)
  | .google => renderGoogle fromStr request.toRequest body

def Client.renderBody (showFloat : φ → List Char) (client : Client) (request : PlannedRequest φ) :
    Except CanonicalError String := do
  let body ← client.body fromStr request
  canonicalizeValue showFloat (.object body.entries)

end

/-! ## What marking does -/

namespace Value

theorem get_putEntry_self {value item : Value φ} {key : String} (h : value.get key = some item) (item' : Value φ) :
    (value.putEntry key item').get key = some item' := by
  cases value with
  | object map => rw [putEntry, get, ← OrdMap.getIn_eq_lookup, OrdMap.getIn_insertIn, if_pos rfl]
  | _ => cases h

/-- Changing an entry again changes nothing, where changing its value again does not. -/
theorem modifyEntry_modifyEntry {f : Value φ → Value φ} (hf : ∀ item, f (f item) = f item) (value : Value φ)
    (key : String) :
    (value.modifyEntry key f).modifyEntry key f = value.modifyEntry key f := by
  cases hget : value.get key with
  | none =>
    have hsame : value.modifyEntry key f = value := by rw [modifyEntry, hget]
    rw [hsame, hsame]
  | some item =>
    have hput : value.modifyEntry key f = value.putEntry key (f item) := by rw [modifyEntry, hget]
    rw [hput, modifyEntry, get_putEntry_self hget]
    change (value.putEntry key (f item)).putEntry key (f (f item)) = value.putEntry key (f item)
    rw [hf, putEntry_putEntry]

theorem modifyLast_modifyLast {f : Value φ → Value φ} (hf : ∀ item, f (f item) = f item) (value : Value φ) :
    (value.modifyLast f).modifyLast f = value.modifyLast f := by
  cases value with
  | array items =>
    rw [modifyLast, modifyLast]
    congr 1
    rcases List.eq_nil_or_concat items with rfl | ⟨init, item, rfl⟩
    · rfl
    · rw [List.concat_eq_append, List.modifyLast_concat, List.modifyLast_concat, hf]
  | _ => rfl

theorem exact_get {value item : Value φ} {key : String} (h : value.exact = true) (hget : value.get key = some item) :
    item.exact = true := by
  cases value with
  | object map =>
    rw [exact, exactEntries_eq, List.all_eq_true] at h
    obtain ⟨before, after, rfl, -⟩ := List.lookup_eq_some_iff.mp hget
    exact h (key, item) (by simp)
  | _ => cases hget

theorem exact_modifyEntry {f : Value φ → Value φ} (hf : ∀ item, item.exact = true → (f item).exact = true)
    {value : Value φ} (h : value.exact = true) (key : String) : (value.modifyEntry key f).exact = true := by
  rw [modifyEntry]
  cases hget : value.get key with
  | none => exact h
  | some item => exact exact_putEntry h (hf item (exact_get h hget)) key

theorem exact_modifyLast {f : Value φ → Value φ} (hf : ∀ item, item.exact = true → (f item).exact = true)
    {value : Value φ} (h : value.exact = true) : (value.modifyLast f).exact = true := by
  cases value with
  | array items =>
    rw [exact, exactItems_eq] at h
    rw [modifyLast, exact, exactItems_eq]
    rcases List.eq_nil_or_concat items with rfl | ⟨init, item, rfl⟩
    · rfl
    · rw [List.concat_eq_append, List.all_append, Bool.and_eq_true, List.all_cons, Bool.and_eq_true] at h
      rw [List.concat_eq_append, List.modifyLast_concat, List.all_append, Bool.and_eq_true, List.all_cons,
        Bool.and_eq_true]
      exact ⟨h.1, hf item h.2.1, rfl⟩
  | _ => exact h

end Value

theorem exact_cacheControl (breakpoint : Breakpoint) : (cacheControl breakpoint : Value φ).exact = true := rfl

theorem markMessages_markMessages (marker messages : Value φ) :
    markMessages marker (markMessages marker messages) = markMessages marker messages :=
  Value.modifyLast_modifyLast (Value.modifyEntry_modifyEntry (Value.modifyLast_modifyLast
    (fun block => block.putEntry_putEntry "cache_control" marker) ·) · "content") messages

theorem exact_markTools {marker tools : Value φ} (hmarker : marker.exact = true) (h : tools.exact = true) :
    (markTools marker tools).exact = true :=
  Value.exact_modifyLast (fun _ htool => Value.exact_putEntry htool hmarker "cache_control") h

theorem exact_markMessages {marker messages : Value φ} (hmarker : marker.exact = true) (h : messages.exact = true) :
    (markMessages marker messages).exact = true := by
  refine Value.exact_modifyLast (fun message hmessage => ?_) h
  refine Value.exact_modifyEntry (fun content hcontent => ?_) hmessage "content"
  exact Value.exact_modifyLast (fun block hblock => Value.exact_putEntry hblock hmarker "cache_control") hcontent

/-! ## Bodies without floats -/

/-- No entry of the body has a float. -/
def ExactBody (body : OrdMap String (Value φ)) : Prop := (Value.object body.entries).exact = true

namespace ExactBody

variable {body : OrdMap String (Value φ)}

theorem insert (h : ExactBody body) (key : String) {value : Value φ} (hvalue : value.exact = true) :
    ExactBody (body.insert key value) := Value.exact_putEntry h hvalue key

theorem modifyBody (h : ExactBody body) (key : String) {f : Value φ → Value φ}
    (hf : ∀ value, value.exact = true → (f value).exact = true) : ExactBody (modifyBody body key f) := by
  rw [Llm.modifyBody]
  cases hget : body.get key with
  | none => exact h
  | some value =>
    have hvalue : (Value.object body.entries).get key = some value := by
      rw [Value.get, ← OrdMap.getIn_eq_lookup]
      exact hget
    exact h.insert key (hf value (Value.exact_get h hvalue))

theorem applyCacheControl (h : ExactBody body) (breakpoint : Breakpoint) :
    ExactBody (applyCacheControl body breakpoint) := by
  cases breakpoint with
  | bp1Tools => exact h.modifyBody "tools" fun _ => exact_markTools (exact_cacheControl _)
  | bp2System => exact h
  | bp3MemoryIndex => exact h
  | bp4PreviousTurn => exact h.modifyBody "messages" fun _ => exact_markMessages (exact_cacheControl _)

theorem applyCacheControls (h : ExactBody body) (breakpoints : List Breakpoint) :
    ExactBody (breakpoints.foldl Llm.applyCacheControl body) := by
  induction breakpoints generalizing body with
  | nil => exact h
  | cons breakpoint breakpoints ih => exact ih (h.applyCacheControl breakpoint)

end ExactBody

section

variable (fromStr : String → Except String (Value φ))

/-- No block of the conversation and no tool that is read has a float. -/
def PlannedRequest.exact (request : PlannedRequest φ) : Bool :=
  (request.messages.all fun message => message.content.all ContentBlock.exact) &&
    match toolsValue fromStr request.tools with
    | .ok tools => tools.all Value.exact
    | .error _ => true

theorem exact_messagesValue (messages : List (Message φ)) :
    (messagesValue messages).exact = messages.all fun message => message.content.all ContentBlock.exact := by
  rw [messagesValue, Value.exact, Value.exactItems_eq, List.all_map]
  congr 1
  funext message
  have hvalue : (messageValue message).exact = (message.content.map ContentBlock.wireValue).all Value.exact := by
    simp [messageValue, Value.exact, Value.exactEntries, Value.exactItems_eq]
  rw [Function.comp, hvalue, List.all_map]
  congr 1
  funext block
  exact block.exact_wireValue

theorem exactBody_putReadTools {tools : List String} {body : OrdMap String (Value φ)} (h : ExactBody body)
    (htools : ∀ read, toolsValue fromStr tools = .ok read → read.all Value.exact = true) :
    ExactBody (putReadTools fromStr tools body) := by
  rw [putReadTools]
  by_cases hempty : tools.isEmpty = true
  · rw [if_pos hempty]
    exact h
  · rw [if_neg hempty]
    cases hread : toolsValue fromStr tools with
    | error e => exact h
    | ok read =>
      refine h.insert "tools" ?_
      rw [Value.exact, Value.exactItems_eq]
      exact htools read hread

theorem exact_thinkingValue (model : String) (thinking : Thinking) :
    (thinkingValue model thinking : Value φ).exact = true := by
  rw [thinkingValue]
  split_ifs <;> rfl

theorem exactBody_renderAnthropic {request : PlannedRequest φ} {body : OrdMap String (Value φ)} (h : ExactBody body)
    (hrequest : request.exact fromStr = true) : ExactBody (renderAnthropic fromStr request body) := by
  rw [PlannedRequest.exact, Bool.and_eq_true, ← exact_messagesValue] at hrequest
  obtain ⟨hmessages, htools⟩ := hrequest
  have hfixed : ExactBody ((body.insert "max_tokens" (.number (.posInt 32000))).insert "stream" (.bool true)) :=
    (h.insert "max_tokens" rfl).insert "stream" rfl
  have hbody := exactBody_putReadTools fromStr (hfixed.insert "messages" hmessages) fun read hread => by
    rwa [hread] at htools
  rw [renderAnthropic, applyAnthropicCacheControls]
  refine ExactBody.applyCacheControls ?_ _
  rw [putAnthropicThinking]
  split_ifs
  · exact hbody.insert "thinking" (exact_thinkingValue _ _)
  · exact hbody

/-! ## The conversation in the body -/

theorem get_modifyBody (body : OrdMap String (Value φ)) (key key' : String) (f : Value φ → Value φ) :
    (modifyBody body key f).get key' = if key' = key then (body.get key').map f else body.get key' := by
  rw [modifyBody]
  by_cases h : key' = key
  · subst h
    rw [if_pos rfl]
    cases hget : body.get key' with
    | none => exact hget
    | some value => rw [OrdMap.get_insert, if_pos rfl, Option.map_some]
  · rw [if_neg h]
    cases body.get key with
    | none => rfl
    | some value => rw [OrdMap.get_insert, if_neg h]

/-- The breakpoints mark the conversation once, where the last of them is taken. -/
theorem get_applyCacheControls (breakpoints : List Breakpoint) (body : OrdMap String (Value φ)) :
    (breakpoints.foldl applyCacheControl body).get "messages" = (body.get "messages").map
      (if .bp4PreviousTurn ∈ breakpoints then markMessages (cacheControl .bp4PreviousTurn) else id) := by
  induction breakpoints generalizing body with
  | nil => simp
  | cons breakpoint breakpoints ih =>
    rw [List.foldl_cons, ih]
    cases breakpoint with
    | bp1Tools =>
      rw [applyCacheControl, get_modifyBody, if_neg (show "messages" ≠ "tools" by decide)]
      simp
    | bp2System => simp [applyCacheControl]
    | bp3MemoryIndex => simp [applyCacheControl]
    | bp4PreviousTurn =>
      rw [applyCacheControl, get_modifyBody, if_pos rfl, Option.map_map, if_pos (List.mem_cons_self (l := breakpoints))]
      congr 1
      funext messages
      split_ifs
      · exact markMessages_markMessages _ messages
      · rfl

theorem get_putReadTools (tools : List String) (body : OrdMap String (Value φ)) :
    (putReadTools fromStr tools body).get "messages" = body.get "messages" := by
  rw [putReadTools]
  split_ifs
  · rfl
  · cases toolsValue fromStr tools with
    | error e => rfl
    | ok read => rw [OrdMap.get_insert, if_neg (by decide)]

theorem get_putAnthropicThinking (thinking : Thinking) (body : OrdMap String (Value φ)) :
    (putAnthropicThinking thinking body).get "messages" = body.get "messages" := by
  rw [putAnthropicThinking]
  split_ifs
  · rw [OrdMap.get_insert, if_neg (by decide)]
  · rfl

/-- An Anthropic body carries the conversation, marked where the breakpoint of the previous turn is taken. -/
theorem get_renderAnthropic (request : PlannedRequest φ) (body : OrdMap String (Value φ)) :
    (renderAnthropic fromStr request body).get "messages" =
      some ((if .bp4PreviousTurn ∈ request.effectiveBreakpoints then markMessages (cacheControl .bp4PreviousTurn) else id)
        (messagesValue request.messages)) := by
  rw [renderAnthropic, applyAnthropicCacheControls, get_applyCacheControls, get_putAnthropicThinking, get_putReadTools,
    OrdMap.get_insert, if_pos rfl, Option.map_some]

/-! ## Rendering -/

variable (showFloat : φ → List Char) (model : String)

/-- An Anthropic client renders a request without floats. -/
theorem renderBody_ok {request : PlannedRequest φ} (h : request.exact fromStr = true) :
    ∃ body, (Client.mk (.forKind .anthropic) model).body fromStr request = .ok body ∧ ExactBody body ∧
      (Client.mk (.forKind .anthropic) model).renderBody fromStr showFloat request =
        .ok (String.ofList (emit showFloat (.object body.entries))) ∧
      body.get "messages" =
        some ((if .bp4PreviousTurn ∈ request.effectiveBreakpoints then markMessages (cacheControl .bp4PreviousTurn)
          else id) (messagesValue request.messages)) := by
  have hmodel : ExactBody (OrdMap.empty.insert "model" (.string model : Value φ)) := rfl
  have hbody := exactBody_renderAnthropic fromStr hmodel h
  refine ⟨_, rfl, hbody, ?_, get_renderAnthropic fromStr request _⟩
  have hcheck := (check_iff "$" _).mpr hbody
  simp only [Client.renderBody, Client.body, CachePolicy.forKind, canonicalizeValue, bind, Except.bind, hcheck]

/-- A request that is refused is refused for a float. -/
theorem renderBody_error {request : PlannedRequest φ} {e : CanonicalError}
    (h : (Client.mk (.forKind .anthropic) model).renderBody fromStr showFloat request = .error e) :
    ∃ path, e = .float path := by
  simp only [Client.renderBody, Client.body, CachePolicy.forKind, canonicalizeValue, bind, Except.bind] at h
  split at h
  · next hcheck =>
    cases h
    exact check_error hcheck
  · cases h

end

end SupraHarness.Llm
