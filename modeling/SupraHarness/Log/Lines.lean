import SupraHarness.Log.Redact

/-!
# Log lines in JSON

An event as the JSON formatter writes it, and the same line cut where a secret stands: the text before
a secret field, the field with its value, and what follows.
-/
namespace SupraHarness.Redact

/-- The text of a number. -/
structure Numeral where
  text : List Char
  nonempty : text ≠ []
  plain : ∀ c ∈ text, c.isDigit ∨ c ∈ ['+', '-', '.', 'e', 'E']

inductive Json where
  | null
  | bool (b : Bool)
  | number (n : Numeral)
  | string (text : List Char)
  | array (items : List Json)
  | object (fields : List (List Char × Json))

/-- The escapes of `serde_json`. -/
def escapeChar (c : Char) : List Char :=
  if c = '"' then ['\\', '"']
  else if c = '\\' then ['\\', '\\']
  else if c = '\x08' then ['\\', 'b']
  else if c = '\x0C' then ['\\', 'f']
  else if c = '\n' then ['\\', 'n']
  else if c = '\r' then ['\\', 'r']
  else if c = '\t' then ['\\', 't']
  else if c.toNat < 0x20 then
    ['\\', 'u', '0', '0', Nat.digitChar (c.toNat / 16), Nat.digitChar (c.toNat % 16)]
  else [c]

def escape (text : List Char) : List Char := text.flatMap escapeChar

def quoted (text : List Char) : List Char := '"' :: escape text ++ ['"']

/-- The comma before every entry but the first. -/
def separator (first : Bool) : List Char := if first then [] else [',']

mutual

def Json.render : Json → List Char
  | .null => "null".toList
  | .bool b => (if b then "true" else "false").toList
  | .number n => n.text
  | .string text => quoted text
  | .array items => '[' :: renderItems true items ++ [']']
  | .object fields => '\x7b' :: renderFields true fields ++ ['\x7d']

def renderItems (first : Bool) : List Json → List Char
  | [] => []
  | item :: items => separator first ++ item.render ++ renderItems false items

def renderFields (first : Bool) : List (List Char × Json) → List Char
  | [] => []
  | (name, value) :: fields =>
    separator first ++ quoted name ++ ':' :: value.render ++ renderFields false fields

end

/-- The string in a field whose name says that it is a secret. -/
def secretOf (name : List Char) : Json → Option (List Char)
  | .string text => if name ∈ secretFields then some text else none
  | _ => none

mutual

/-- Every secret replaced. -/
def Json.mapSecrets (f : List Char → List Char) : Json → Json
  | .null => .null
  | .bool b => .bool b
  | .number n => .number n
  | .string text => .string text
  | .array items => .array (mapItems f items)
  | .object fields => .object (mapFields f fields)

def mapItems (f : List Char → List Char) : List Json → List Json
  | [] => []
  | item :: items => item.mapSecrets f :: mapItems f items

def mapFields (f : List Char → List Char) : List (List Char × Json) → List (List Char × Json)
  | [] => []
  | (name, value) :: fields =>
    (name,
      match secretOf name value with
      | some text => .string (f text)
      | none => value.mapSecrets f) :: mapFields f fields

end

def escapedLen (text : List Char) : Nat := utf8Len (escape text)

/-- As long as the secret, and nothing of it. -/
def pad (text : List Char) : List Char := List.replicate (escapedLen text) '*'

/-- The two differ in the strings of secret fields and in nothing else. -/
def Json.SameShape (x y : Json) : Prop := x.mapSecrets (fun _ => []) = y.mapSecrets fun _ => []

/-- They differ only in such strings, and these have equal escaped lengths. -/
def Json.SameButSecrets (x y : Json) : Prop := x.mapSecrets pad = y.mapSecrets pad

/-- A line cut at its secrets. -/
inductive Line where
  | plain (text : List Char)
  | secret (before field value : List Char) (after : Line)

namespace Line

def prepend (text : List Char) : Line → Line
  | plain rest => plain (text ++ rest)
  | secret before field value after => secret (text ++ before) field value after

def map (f : List Char → List Char) : Line → Line
  | plain text => plain text
  | secret before field value after => secret before field (f value) (after.map f)

/-- A secret field up to the quote that opens its value. -/
def opening (field : List Char) : List Char := '"' :: field ++ ['"', ':', '"']

def text : Line → List Char
  | plain text => text
  | secret before field value after => before ++ opening field ++ escape value ++ '"' :: after.text

/-- Every secret is in a secret field that begins after a brace or a comma. -/
def WellFormed : Line → Prop
  | plain _ => True
  | secret before field _ after => Delimited before ∧ field ∈ secretFields ∧ after.WellFormed

@[simp] theorem prepend_nil (line : Line) : line.prepend [] = line := by cases line <;> rfl

@[simp] theorem prepend_prepend (s t : List Char) (line : Line) :
    (line.prepend t).prepend s = line.prepend (s ++ t) := by
  cases line <;> simp [prepend]

@[simp] theorem text_prepend (t : List Char) (line : Line) : (line.prepend t).text = t ++ line.text := by
  cases line <;> simp [prepend, text]

@[simp] theorem map_prepend (f : List Char → List Char) (t : List Char) (line : Line) :
    (line.prepend t).map f = (line.map f).prepend t := by
  cases line <;> rfl

theorem WellFormed.prepend {line : Line} (h : line.WellFormed) (t : List Char) :
    (line.prepend t).WellFormed := by
  cases line with
  | plain text => trivial
  | secret before field value after => exact ⟨h.1.prepend t, h.2⟩

end Line

mutual

/-- The line that goes on as `rest` does after the value. -/
def Json.cut : Json → Line → Line
  | .null, rest => rest.prepend (Json.render .null)
  | .bool b, rest => rest.prepend (Json.render (.bool b))
  | .number n, rest => rest.prepend n.text
  | .string text, rest => rest.prepend (quoted text)
  | .array items, rest => (cutItems true items (rest.prepend [']'])).prepend ['[']
  | .object fields, rest => (cutFields true fields (rest.prepend ['\x7d'])).prepend ['\x7b']

def cutItems (first : Bool) : List Json → Line → Line
  | [], rest => rest
  | item :: items, rest => (item.cut (cutItems false items rest)).prepend (separator first)

def cutFields (first : Bool) : List (List Char × Json) → Line → Line
  | [], rest => rest
  | (name, value) :: fields, rest =>
    match secretOf name value with
    | some text => .secret (separator first) name text (cutFields false fields rest)
    | none =>
      (value.cut (cutFields false fields rest)).prepend (separator first ++ quoted name ++ [':'])

end

theorem secretOf_eq_some {name text : List Char} {value : Json} (h : secretOf name value = some text) :
    name ∈ secretFields ∧ value = .string text := by
  unfold secretOf at h
  split at h
  · split at h
    · cases h
      exact ⟨by assumption, rfl⟩
    · cases h
  · cases h

theorem secretOf_string {name : List Char} (mem : name ∈ secretFields) (text : List Char) :
    secretOf name (.string text) = some text := if_pos mem

theorem secretOf_mapSecrets (f : List Char → List Char) (name : List Char) (value : Json) :
    secretOf name (value.mapSecrets f) = secretOf name value := by cases value <;> rfl

mutual

theorem Json.mapSecrets_mapSecrets (f g : List Char → List Char) (value : Json) :
    (value.mapSecrets g).mapSecrets f = value.mapSecrets fun text => f (g text) := by
  match value with
  | .null | .bool b | .number n | .string text => simp [Json.mapSecrets]
  | .array items => simp [Json.mapSecrets, mapItems_mapItems]
  | .object fields => simp [Json.mapSecrets, mapFields_mapFields]

theorem mapItems_mapItems (f g : List Char → List Char) (items : List Json) :
    mapItems f (mapItems g items) = mapItems (fun text => f (g text)) items := by
  match items with
  | [] => rfl
  | item :: items => simp [mapItems, Json.mapSecrets_mapSecrets, mapItems_mapItems]

theorem mapFields_mapFields (f g : List Char → List Char) (fields : List (List Char × Json)) :
    mapFields f (mapFields g fields) = mapFields (fun text => f (g text)) fields := by
  match fields with
  | [] => rfl
  | (name, value) :: fields =>
    cases secret : secretOf name value with
    | some text =>
      obtain ⟨mem, rfl⟩ := secretOf_eq_some secret
      simp [mapFields, secret, secretOf_string mem, mapFields_mapFields]
    | none =>
      simp [mapFields, secret, secretOf_mapSecrets, Json.mapSecrets_mapSecrets, mapFields_mapFields]

end

theorem escape_secret {name : List Char} (mem : name ∈ secretFields) : escape name = name :=
  (by decide : ∀ name ∈ secretFields, escape name = name) name mem

mutual

/-- The cut line is the rendered one. -/
theorem Json.cut_text (value : Json) (rest : Line) : (value.cut rest).text = value.render ++ rest.text := by
  match value with
  | .null | .bool b => simp [Json.cut]
  | .number n => simp [Json.cut, Json.render]
  | .string text => simp [Json.cut, Json.render]
  | .array items => simp [Json.cut, Json.render, cutItems_text]
  | .object fields => simp [Json.cut, Json.render, cutFields_text]

theorem cutItems_text (first : Bool) (items : List Json) (rest : Line) :
    (cutItems first items rest).text = renderItems first items ++ rest.text := by
  match items with
  | [] => rfl
  | item :: items => simp [cutItems, renderItems, Json.cut_text, cutItems_text]

theorem cutFields_text (first : Bool) (fields : List (List Char × Json)) (rest : Line) :
    (cutFields first fields rest).text = renderFields first fields ++ rest.text := by
  match fields with
  | [] => rfl
  | (name, value) :: fields =>
    cases secret : secretOf name value with
    | some text =>
      obtain ⟨mem, rfl⟩ := secretOf_eq_some secret
      simp [cutFields, secret, renderFields, Line.text, Line.opening, Json.render, cutFields_text,
        quoted, escape_secret mem]
    | none => simp [cutFields, secret, renderFields, Json.cut_text, cutFields_text]

end

mutual

theorem Json.cut_map (f : List Char → List Char) (value : Json) (rest : Line) :
    (value.mapSecrets f).cut (rest.map f) = (value.cut rest).map f := by
  match value with
  | .null | .bool b | .number n | .string text => simp [Json.cut, Json.mapSecrets]
  | .array items => simp [Json.cut, Json.mapSecrets, ← cutItems_map]
  | .object fields => simp [Json.cut, Json.mapSecrets, ← cutFields_map]

theorem cutItems_map (f : List Char → List Char) (first : Bool) (items : List Json) (rest : Line) :
    cutItems first (mapItems f items) (rest.map f) = (cutItems first items rest).map f := by
  match items with
  | [] => rfl
  | item :: items => simp [cutItems, mapItems, Json.cut_map, cutItems_map]

/-- The cut of the line with other secrets has them in the same places. -/
theorem cutFields_map (f : List Char → List Char) (first : Bool) (fields : List (List Char × Json))
    (rest : Line) : cutFields first (mapFields f fields) (rest.map f) = (cutFields first fields rest).map f := by
  match fields with
  | [] => rfl
  | (name, value) :: fields =>
    cases secret : secretOf name value with
    | some text =>
      obtain ⟨mem, rfl⟩ := secretOf_eq_some secret
      simp [cutFields, mapFields, secret, secretOf_string mem, Line.map, cutFields_map]
    | none =>
      simp [cutFields, mapFields, secret, secretOf_mapSecrets, Json.cut_map, cutFields_map]

end

mutual

theorem Json.cut_wellFormed (value : Json) (rest : Line) (h : rest.WellFormed) :
    (value.cut rest).WellFormed := by
  match value with
  | .null | .bool b | .number n | .string text => exact h.prepend _
  | .array items => exact (cutItems_wellFormed true items _ (h.prepend _)).prepend _
  | .object fields =>
    have fields := cutFields_wellFormed true fields _ (h.prepend ['\x7d'])
    exact fields

theorem cutItems_wellFormed (first : Bool) (items : List Json) (rest : Line) (h : rest.WellFormed) :
    (cutItems first items rest).WellFormed := by
  match items with
  | [] => exact h
  | item :: items => exact (Json.cut_wellFormed item _ (cutItems_wellFormed false items rest h)).prepend _

/-- A brace or a comma stands before every field. -/
theorem cutFields_wellFormed (first : Bool) (fields : List (List Char × Json)) (rest : Line)
    (h : rest.WellFormed) :
    ((cutFields first fields rest).prepend (if first then ['\x7b'] else [])).WellFormed := by
  match fields with
  | [] => exact h.prepend _
  | (name, value) :: fields =>
    have after := cutFields_wellFormed false fields rest h
    rw [if_neg (by decide), Line.prepend_nil] at after
    cases secret : secretOf name value with
    | some text =>
      obtain ⟨mem, rfl⟩ := secretOf_eq_some secret
      rw [cutFields, secret]
      refine ⟨?_, mem, after⟩
      cases first
      · exact ⟨[], ',', rfl, by decide⟩
      · exact ⟨[], '\x7b', rfl, by decide⟩
    | none =>
      rw [cutFields, secret]
      exact ((Json.cut_wellFormed value _ after).prepend _).prepend _

end

end SupraHarness.Redact
