import Mathlib.Data.String.Basic
import SupraHarness.Lib.JsonWrite
import SupraHarness.Lib.Results
import SupraHarness.Llm.Scanner

/-!
# Canonical JSON

The canonicaliser: what a value is checked for, and the text it is emitted as, with the keys of every
object sorted. The order of keys is that of their bytes, which for UTF-8 is that of their characters.
-/
namespace SupraHarness.Llm

open Results (bind_eq_ok bind_eq_error)

variable {φ : Type}

namespace Number

def isF64 : Number φ → Bool
  | float _ => true
  | _ => false

def isI64 : Number φ → Bool
  | posInt n => n.toNat < 2 ^ 63
  | negInt _ => true
  | float _ => false

def isU64 : Number φ → Bool
  | posInt _ => true
  | _ => false

/-- `to_string`, given how a float is shown. -/
def text (showFloat : φ → List Char) : Number φ → List Char
  | posInt n => Nat.toDigits 10 n.toNat
  | negInt n => '-' :: Nat.toDigits 10 n.val.natAbs
  | float f => showFloat f

end Number

mutual

def check (path : String) : Value φ → Except CanonicalError Unit
  | .null => .ok ()
  | .bool _ => .ok ()
  | .number number =>
    if number.isF64 then .error (.float path)
    else if number.isI64 || number.isU64 then .ok ()
    else .error (.numberOutOfRange path)
  | .string _ => .ok ()
  | .array items => checkItems path 0 items
  | .object map => checkEntries path map

/-- The items of an array from a position on. -/
def checkItems (path : String) (index : Nat) : List (Value φ) → Except CanonicalError Unit
  | [] => .ok ()
  | item :: items => do
    check s!"{path}[{index}]" item
    checkItems path (index + 1) items

/-- The entries of an object, in the order the map iterates over them. -/
def checkEntries (path : String) : List (String × Value φ) → Except CanonicalError Unit
  | [] => .ok ()
  | (key, item) :: map => do
    check s!"{path}[{debug key}]" item
    checkEntries path map

end

/-- `keys.sort()`, each key with what it stands for. -/
def sortByKey {β : Type} (entries : List (String × β)) : List (String × β) :=
  entries.mergeSort fun a b => a.1 ≤ b.1

section

variable (showFloat : φ → List Char)

/-- An entry of an object, with its value as it is emitted. -/
def entryText (entry : String × List Char) : List Char := Json.quoted entry.1.toList ++ ':' :: entry.2

mutual

/-- The values of an object are emitted as they stand in the map, and then sorted by their keys. -/
def emit : Value φ → List Char
  | .null => "null".toList
  | .bool true => "true".toList
  | .bool false => "false".toList
  | .number number => number.text showFloat
  | .string text => Json.quoted text.toList
  | .array items => '[' :: ([','].intercalate (emitItems items) ++ [']'])
  | .object map => '\x7b' :: ([','].intercalate ((sortByKey (emitEntries map)).map entryText) ++ ['\x7d'])

def emitItems : List (Value φ) → List (List Char)
  | [] => []
  | item :: items => emit item :: emitItems items

def emitEntries : List (String × Value φ) → List (String × List Char)
  | [] => []
  | (key, item) :: map => (key, emit item) :: emitEntries map

end

def canonicalizeValue (value : Value φ) : Except CanonicalError String := do
  check "$" value
  .ok (String.ofList (emit showFloat value))

def canonicalize (fromStr : String → Except String (Value φ)) (input : String) : Except Stop String := do
  let value ← parseStrict fromStr input
  (check "$" value).mapError .err
  .ok (String.ofList (emit showFloat value))

end

/-! ## Induction over values -/

/-- What holds of the values without parts, and of the others if it holds of their parts. -/
theorem Value.parts_induction {motive : Value φ → Prop} (null : motive .null) (bool : ∀ b, motive (.bool b))
    (number : ∀ n, motive (.number n)) (string : ∀ text, motive (.string text))
    (array : ∀ items, (∀ item ∈ items, motive item) → motive (.array items))
    (object : ∀ map, (∀ entry ∈ map, motive entry.2) → motive (.object map)) (value : Value φ) : motive value :=
  @Value.rec φ motive (fun items => ∀ item ∈ items, motive item) (fun map => ∀ entry ∈ map, motive entry.2)
    (fun entry => motive entry.2) null bool number string array object nofun
    (fun _ _ hitem hitems => List.forall_mem_cons.mpr ⟨hitem, hitems⟩) nofun
    (fun _ _ hentry hmap => List.forall_mem_cons.mpr ⟨hentry, hmap⟩) (fun _ _ hitem => hitem) value

theorem emitItems_eq (showFloat : φ → List Char) (items : List (Value φ)) :
    emitItems showFloat items = items.map (emit showFloat) := by
  induction items with
  | nil => rfl
  | cons item items ih => rw [emitItems, ih, List.map_cons]

theorem emitEntries_eq (showFloat : φ → List Char) (map : List (String × Value φ)) :
    emitEntries showFloat map = map.map (Prod.map id (emit showFloat)) := by
  induction map with
  | nil => rfl
  | cons entry map ih =>
    obtain ⟨key, item⟩ := entry
    rw [emitEntries, ih, List.map_cons]
    rfl

/-! ## What is refused -/

namespace Value

mutual

/-- The value has no float at any depth. -/
def exact : Value φ → Bool
  | .number n => !n.isF64
  | .array items => exactItems items
  | .object map => exactEntries map
  | _ => true

def exactItems : List (Value φ) → Bool
  | [] => true
  | item :: items => exact item && exactItems items

def exactEntries : List (String × Value φ) → Bool
  | [] => true
  | (_, item) :: map => exact item && exactEntries map

end

theorem exactItems_eq (items : List (Value φ)) : exactItems items = items.all exact := by
  induction items with
  | nil => rfl
  | cons item items ih => rw [exactItems, ih, List.all_cons]

theorem exactEntries_eq (map : List (String × Value φ)) : exactEntries map = map.all fun entry => exact entry.2 := by
  induction map with
  | nil => rfl
  | cons entry map ih =>
    obtain ⟨key, item⟩ := entry
    rw [exactEntries, ih, List.all_cons]

end Value

/-- Every integer fits in 64 bits. -/
theorem check_number (path : String) (number : Number φ) :
    check path (.number number) = .ok () ↔ number.isF64 = false := by
  cases number with
  | posInt n => simp [check, Number.isF64, Number.isU64]
  | negInt n => simp [check, Number.isF64, Number.isI64]
  | float f => simp [check, Number.isF64]

theorem checkItems_cons (path : String) (index : Nat) (item : Value φ) (items : List (Value φ)) :
    checkItems path index (item :: items) =
      check s!"{path}[{index}]" item >>= fun _ => checkItems path (index + 1) items := rfl

theorem checkEntries_cons (path key : String) (item : Value φ) (map : List (String × Value φ)) :
    checkEntries path ((key, item) :: map) =
      check s!"{path}[{debug key}]" item >>= fun _ => checkEntries path map := rfl

theorem checkItems_iff {items : List (Value φ)} (h : ∀ item ∈ items, ∀ path, check path item = .ok () ↔ item.exact = true)
    (path : String) (index : Nat) : checkItems path index items = .ok () ↔ items.all Value.exact = true := by
  induction items generalizing index with
  | nil => exact ⟨fun _ => rfl, fun _ => rfl⟩
  | cons item items ih =>
    obtain ⟨hitem, hitems⟩ := List.forall_mem_cons.mp h
    rw [checkItems_cons, bind_eq_ok, List.all_cons, Bool.and_eq_true]
    simp only [hitem, ih hitems]
    exact ⟨fun ⟨_, h⟩ => h, fun h => ⟨(), h⟩⟩

theorem checkEntries_iff {map : List (String × Value φ)}
    (h : ∀ entry ∈ map, ∀ path, check path entry.2 = .ok () ↔ entry.2.exact = true) (path : String) :
    checkEntries path map = .ok () ↔ (map.all fun entry => entry.2.exact) = true := by
  induction map with
  | nil => exact ⟨fun _ => rfl, fun _ => rfl⟩
  | cons entry map ih =>
    obtain ⟨key, item⟩ := entry
    obtain ⟨hitem, hmap⟩ := List.forall_mem_cons.mp h
    rw [checkEntries_cons, bind_eq_ok, List.all_cons, Bool.and_eq_true]
    simp only [hitem, ih hmap]
    exact ⟨fun ⟨_, h⟩ => h, fun h => ⟨(), h⟩⟩

/-- A value is refused for a float at some depth, and for nothing else. -/
theorem check_iff (path : String) (value : Value φ) : check path value = .ok () ↔ value.exact = true := by
  induction value using Value.parts_induction generalizing path with
  | null => simp [check, Value.exact]
  | bool b => simp [check, Value.exact]
  | number number => rw [check_number, Value.exact, Bool.not_eq_true']
  | string text => simp [check, Value.exact]
  | array items ih => rw [check, checkItems_iff fun item hitem path => ih item hitem path, Value.exact, Value.exactItems_eq]
  | object map ih => rw [check, checkEntries_iff fun entry hentry path => ih entry hentry path, Value.exact, Value.exactEntries_eq]

theorem checkItems_error {items : List (Value φ)} {path : String} {index : Nat} {e : CanonicalError}
    (ih : ∀ item ∈ items, ∀ path e, check path item = .error e → ∃ path', e = .float path')
    (h : checkItems path index items = .error e) : ∃ path', e = .float path' := by
  induction items generalizing index with
  | nil => cases h
  | cons item items ih' =>
    obtain ⟨hitem, hitems⟩ := List.forall_mem_cons.mp ih
    rw [checkItems_cons, bind_eq_error] at h
    rcases h with h | ⟨-, -, h⟩
    · exact hitem _ e h
    · exact ih' hitems h

theorem checkEntries_error {map : List (String × Value φ)} {path : String} {e : CanonicalError}
    (ih : ∀ entry ∈ map, ∀ path e, check path entry.2 = .error e → ∃ path', e = .float path')
    (h : checkEntries path map = .error e) : ∃ path', e = .float path' := by
  induction map with
  | nil => cases h
  | cons entry map ih' =>
    obtain ⟨key, item⟩ := entry
    obtain ⟨hitem, hmap⟩ := List.forall_mem_cons.mp ih
    rw [checkEntries_cons, bind_eq_error] at h
    rcases h with h | ⟨-, -, h⟩
    · exact hitem _ e h
    · exact ih' hmap h

/-- Integers always fit, so that a refusal is always of a float. -/
theorem check_error {path : String} {value : Value φ} {e : CanonicalError} (h : check path value = .error e) :
    ∃ path', e = .float path' := by
  induction value using Value.parts_induction generalizing path e with
  | number number =>
    cases number with
    | posInt n => simp [check, Number.isF64, Number.isU64] at h
    | negInt n => simp [check, Number.isF64, Number.isI64] at h
    | float f =>
      cases h
      exact ⟨path, rfl⟩
  | array items ih => exact checkItems_error (fun item hitem path e => ih item hitem) h
  | object map ih => exact checkEntries_error (fun entry hentry path e => ih entry hentry) h
  | _ => cases h

end SupraHarness.Llm
