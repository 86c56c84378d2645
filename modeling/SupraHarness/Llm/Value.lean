import Mathlib.Algebra.Group.Int.Defs
import Mathlib.Algebra.Group.Nat.Defs
import Mathlib.Data.List.Basic

/-!
# JSON values

The values of the `serde_json` library as the language-model client reads them. A number is an
unsigned or a negative 64-bit integer or a float, of whatever type `φ` floats have; an object is a
list of entries in the order its map iterates over them.
-/
namespace SupraHarness.Llm

/-- The `i64`s that are not `u64`s. -/
structure NegInt where
  val : Int
  neg : val < 0
  fits : -2 ^ 63 ≤ val
  deriving DecidableEq, Repr

inductive Number (φ : Type) where
  | posInt (n : UInt64)
  | negInt (n : NegInt)
  | float (f : φ)
  deriving DecidableEq, Repr

inductive Value (φ : Type) where
  | null
  | bool (b : Bool)
  | number (n : Number φ)
  | string (text : String)
  | array (items : List (Value φ))
  | object (map : List (String × Value φ))
  deriving Repr

namespace Value

variable {φ : Type}

/-- `get` with a key. -/
def get (value : Value φ) (key : String) : Option (Value φ) :=
  match value with
  | object map => map.lookup key
  | _ => none

/-- `get` with a position. -/
def getIdx (value : Value φ) (index : Nat) : Option (Value φ) :=
  match value with
  | array items => items[index]?
  | _ => none

def asStr : Value φ → Option String
  | string text => some text
  | _ => none

def asArray : Value φ → Option (List (Value φ))
  | array items => some items
  | _ => none

def asU64 : Value φ → Option UInt64
  | number (.posInt n) => some n
  | _ => none

/-- The string under a key, and the empty one where there is none. -/
def strOrDefault (value : Value φ) (key : String) : String :=
  ((value.get key).bind asStr).getD ""

/-- The entries with one of them set, in its place or at the end. -/
def setEntry (key : String) (item : Value φ) : List (String × Value φ) → List (String × Value φ)
  | [] => [(key, item)]
  | entry :: map => if entry.1 = key then (key, item) :: map else entry :: setEntry key item map

/-- `value[key] = item`: a null becomes an object first, and anything else panics. -/
def assign (value : Value φ) (key : String) (item : Value φ) : Option (Value φ) :=
  match value with
  | null => some (object [(key, item)])
  | object map => some (object (setEntry key item map))
  | _ => none

/-- The values an entry can be set in. -/
def indexable : Value φ → Bool
  | null => true
  | object _ => true
  | _ => false

theorem assign_isSome (value : Value φ) (key : String) (item : Value φ) :
    (value.assign key item).isSome = value.indexable := by
  cases value <;> rfl

theorem lookup_cons (key : String) (entry : String × Value φ) (map : List (String × Value φ)) :
    (entry :: map).lookup key = if key = entry.1 then some entry.2 else map.lookup key := by
  by_cases h : key = entry.1
  · subst h
    rw [if_pos rfl]
    exact List.lookup_cons_self
  · rw [if_neg h, List.lookup_cons, beq_false_of_ne h]

end Value

/-- How `Debug` writes a string. -/
def debug (text : String) : String :=
  "\"" ++ String.join (text.toList.map escape) ++ "\""
where
  escape (c : Char) : String :=
    if c = '\x00' then "\\0" else if c = '\t' then "\\t" else if c = '\n' then "\\n"
    else if c = '\r' then "\\r" else if c = '"' then "\\\"" else if c = '\\' then "\\\\"
    else if c.toNat < 0x20 || c.toNat = 0x7F then
      "\\u\x7b" ++ String.ofList (Nat.toDigits 16 c.toNat) ++ "\x7d"
    else c.toString

end SupraHarness.Llm

/-!
## Completions

What a provider's answer is read into, the ways reading it fails, and the response it is read
from: its headers and the chunks in which the network delivered its body.
-/
namespace SupraHarness.Llm

inductive ContentBlock (φ : Type) where
  | text (text : String) (citations : List (Value φ))
  | thinking (thinking signature : String)
  | redactedThinking (data : String)
  | toolUse (id name : String) (input : Value φ)
  | toolResult (toolUseId : String) (content : Value φ) (isError : Bool)
  | unknown (raw : Value φ)

structure Usage where
  inputTokens : UInt64 := 0
  outputTokens : UInt64 := 0
  cachedTokens : UInt64 := 0
  deriving DecidableEq, Repr

inductive StopReason where
  | endTurn | toolUse | maxTokens | stopSequence | pauseTurn | refusal
  | modelContextWindowExceeded | contentFilter
  | other (reason : String)
  deriving DecidableEq, Repr

structure Thinking where
  budgetTokens : UInt32
  deriving DecidableEq, Repr

structure Completion (φ : Type) where
  content : List (ContentBlock φ)
  stopReason : StopReason
  stopSequence : Option String
  model : String
  requestId : Option String
  usage : Option Usage
  thinking : Thinking

/-- The failures of reading a response. -/
inductive LlmError where
  | transport (provider detail : String)
  | badResponse (provider detail : String)
  deriving DecidableEq, Repr

/-- How a call ends that does not return: with an error, or by panicking. -/
inductive Halt (ε : Type) where
  | err (e : ε)
  | panic
  deriving DecidableEq, Repr

/-- A response: the host of its URL, its headers, the chunks of its body, and the transport error
that broke the body off after them, if one did. -/
structure Response where
  host : Option String
  headers : List (String × List UInt8)
  chunks : List (List UInt8)
  broken : Option String

/-- `to_str` of a header value: visible ASCII, spaces and tabs only. -/
def headerStr (value : List UInt8) : Option String :=
  if value.all fun byte => (0x20 ≤ byte && byte < 0x7F) || byte = 0x09 then
    some (String.ofList (value.map fun byte => Char.ofNat byte.toNat))
  else none

/-- The same response with its body cut into other chunks. -/
def Response.recut (response : Response) (chunks : List (List UInt8)) : Response :=
  { response with chunks }

end SupraHarness.Llm
