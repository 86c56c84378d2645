import SupraHarness.Lib.Str
import SupraHarness.Llm.Duplicates
import SupraHarness.Llm.Spelling

/-!
# The canonical form of a value

The texts of one value have one canonical text, which is a text of that value and its own canonical
text; the texts of different values have different ones. The JSON parser refuses the texts that are
nested too deep, so that these have none.
-/
namespace SupraHarness.Llm

open Results (bind_eq_ok)
open Json (Raw Text)
open Utf8 (encode)

variable {φ : Type}

/-- What is relied on of the JSON parser: it accepts texts of the standard only, and none with more
than 127 containers inside one another; where no key is repeated it reads what the text spells; and
it accepts the texts that are not too deep and have no number out of range. -/
structure Serde (float : List UInt8 → Option φ) (fromStr : String → Except String (Value φ)) : Prop where
  accepts : ∀ text value, fromStr text = .ok value →
    ∃ raw, Text Json.standard (bytesOf text) raw ∧ raw.nested 127 = true
  reads : ∀ text raw value, Text Json.standard (bytesOf text) raw → raw.distinct = true →
    fromStr text = .ok value → ∃ value', spelled float raw = some value' ∧ value'.Same value
  total : ∀ text raw value, Text Json.standard (bytesOf text) raw → raw.nested 127 = true →
    spelled float raw = some value → ∃ value', fromStr text = .ok value'

/-- The text is one of the value, without repeated keys and nested at most so deep. -/
def Denotes (float : List UInt8 → Option φ) (depth : Nat) (text : String) (value : Value φ) : Prop :=
  ∃ raw value', Text Json.standard (bytesOf text) raw ∧ raw.distinct = true ∧ raw.nested depth = true ∧
    spelled float raw = some value' ∧ value'.Same value

/-- What canonicalising is for, on the texts nested at most so deep. -/
structure Canonical (float : List UInt8 → Option φ) (showFloat : φ → List Char)
    (fromStr : String → Except String (Value φ)) (depth : Nat) : Prop where
  form : ∀ text value, Denotes float depth text value → value.exact = true →
    ∃ out, canonicalize showFloat fromStr text = .ok out ∧ Denotes float depth out value ∧
      canonicalize showFloat fromStr out = .ok out
  same_iff : ∀ text text' value value' out out', Denotes float depth text value → Denotes float depth text' value' →
    value.exact = true → value'.exact = true → canonicalize showFloat fromStr text = .ok out →
    canonicalize showFloat fromStr text' = .ok out' → (out = out' ↔ value.Same value')
  agrees : ∀ text value, parseStrict fromStr text = .ok value →
    canonicalize showFloat fromStr text = (canonicalizeValue showFloat value).mapError .err
  floats : ∀ text raw lexeme, Text Json.standard (bytesOf text) raw → lexeme ∈ raw.scalars → lexeme ∉ Json.literals →
    (readInteger lexeme : Option (Number φ)) = none → ∀ out, canonicalize showFloat fromStr text ≠ .ok out

section

variable {float : List UInt8 → Option φ} {fromStr : String → Except String (Value φ)} {depth : Nat} {text : String}
  {value value' : Value φ}

theorem encode_injective {cs ds : List Char} (h : encode cs = encode ds) : cs = ds := by
  rw [← Str.fromUtf8Lossy_encode cs, h, Str.fromUtf8Lossy_encode]

/-- The order of entries makes no difference to what is emitted. -/
theorem emit_same (showFloat : φ → List Char) (h : value.Same value') : emit showFloat value = emit showFloat value' := by
  apply encode_injective
  rw [encode_emit, encode_emit, h]

theorem canonicalize_of_parsed (showFloat : φ → List Char) (h : parseStrict fromStr text = .ok value)
    (hexact : value.exact = true) : canonicalize showFloat fromStr text = .ok (String.ofList (emit showFloat value)) := by
  simp only [canonicalize, h, bind, Except.bind, (check_iff "$" value).mpr hexact, Except.mapError]

theorem canonicalize_eq_ok {showFloat : φ → List Char} {out : String} (h : canonicalize showFloat fromStr text = .ok out) :
    ∃ parsed, parseStrict fromStr text = .ok parsed ∧ parsed.exact = true := by
  rw [canonicalize, bind_eq_ok] at h
  obtain ⟨parsed, hparsed, h⟩ := h
  rw [bind_eq_ok] at h
  obtain ⟨_, hcheck, -⟩ := h
  refine ⟨parsed, hparsed, (check_iff "$" parsed).mp ?_⟩
  cases hresult : check "$" parsed with
  | ok u => rfl
  | error e =>
    rw [hresult] at hcheck
    cases hcheck

/-- A text that is not too deep is read as its value. -/
theorem Denotes.parsed (serde : Serde float fromStr) (h : Denotes float 127 text value) :
    ∃ parsed, parseStrict fromStr text = .ok parsed ∧ parsed.Same value := by
  obtain ⟨raw, spelt, htext, hdistinct, hnested, hspelled, hsame⟩ := h
  obtain ⟨parsed, hparsed⟩ := serde.total text raw spelt htext hnested hspelled
  obtain ⟨spelt', hspelled', hsame'⟩ := serde.reads text raw parsed htext hdistinct hparsed
  obtain rfl := Option.some.inj (hspelled.symm.trans hspelled')
  have hscan := Scanner.run_text (valid_bytesOf text) htext
  rw [if_pos hdistinct] at hscan
  exact ⟨parsed, (parseStrict_eq_ok fromStr text parsed).mpr ⟨hscan, hparsed⟩, hsame'.symm.trans hsame⟩

theorem Denotes.canonicalize (serde : Serde float fromStr) (showFloat : φ → List Char) (h : Denotes float 127 text value)
    (hexact : value.exact = true) :
    canonicalize showFloat fromStr text = .ok (String.ofList (emit showFloat value)) := by
  obtain ⟨parsed, hparsed, hsame⟩ := h.parsed serde
  rw [canonicalize_of_parsed showFloat hparsed (hsame.exact_eq.trans hexact), emit_same showFloat hsame]

/-- What is emitted for a value is a text of it. -/
theorem Denotes.emit (showFloat : φ → List Char) (h : Denotes float depth text value) (hexact : value.exact = true) :
    Denotes float depth (String.ofList (emit showFloat value)) value := by
  obtain ⟨raw, spelt, -, hdistinct, hnested, hspelled, hsame⟩ := h
  have hordered : value.ordered.exact = true := (Value.exact_ordered value).trans hexact
  obtain ⟨halike, halike'⟩ := alike_spelled float showFloat hspelled
  obtain ⟨hsort, hsort'⟩ := alike_ordered showFloat spelt
  rw [hsame] at hsort hsort'
  refine ⟨value.ordered.raw showFloat, value.ordered, ?_, ?_, ?_, spelled_raw float showFloat hordered,
    Value.ordered_ordered value⟩
  · rw [bytesOf, String.toList_ofList, encode_emit]
    exact Raw.text_write (standard_raw showFloat hordered)
  · rw [hsort, halike, hdistinct]
  · rw [hsort', halike', hnested]

theorem distinct_of_parsed {raw : Raw} (htext : Text Json.standard (bytesOf text) raw)
    (h : parseStrict fromStr text = .ok value) : raw.distinct = true := by
  obtain ⟨hrun, -⟩ := (parseStrict_eq_ok fromStr text value).mp h
  have hscan := Scanner.run_text (valid_bytesOf text) htext
  by_contra hrepeated
  rw [if_neg hrepeated, hrun] at hscan
  obtain ⟨key, hkey⟩ := hscan
  cases hkey

end

/-- Up to the depth that the JSON parser takes, canonicalising does what it is for. -/
theorem canonicalize_canonical (float : List UInt8 → Option φ) (showFloat : φ → List Char)
    (fromStr : String → Except String (Value φ)) (serde : Serde float fromStr) :
    Canonical float showFloat fromStr 127 where
  form text value h hexact := by
    have hform := h.emit showFloat hexact
    exact ⟨_, h.canonicalize serde showFloat hexact, hform, hform.canonicalize serde showFloat hexact⟩
  same_iff text text' value value' out out' h h' hexact hexact' hout hout' := by
    rw [h.canonicalize serde showFloat hexact] at hout
    rw [h'.canonicalize serde showFloat hexact'] at hout'
    cases hout
    cases hout'
    constructor
    · intro heq
      obtain ⟨parsed, hparsed, hsame⟩ := (h.emit showFloat hexact).parsed serde
      obtain ⟨parsed', hparsed', hsame'⟩ := (h'.emit showFloat hexact').parsed serde
      rw [heq, hparsed'] at hparsed
      cases hparsed
      exact hsame.symm.trans hsame'
    · intro hsame
      rw [emit_same showFloat hsame]
  agrees text value h := by
    simp only [canonicalize, canonicalizeValue, h, bind, Except.bind]
    cases check "$" value with
    | ok u => rfl
    | error e => rfl
  floats text raw lexeme htext hmem hliteral hfloat out hout := by
    obtain ⟨parsed, hparsed, hexact⟩ := canonicalize_eq_ok hout
    have hdistinct := distinct_of_parsed htext hparsed
    obtain ⟨-, hfromStr⟩ := (parseStrict_eq_ok fromStr text parsed).mp hparsed
    obtain ⟨spelt, hspelled, hsame⟩ := serde.reads text raw parsed htext hdistinct hfromStr
    rcases integers_of_exact float hspelled (hsame.exact_eq.trans hexact) lexeme hmem with hmem' | ⟨number, hnumber⟩
    · exact hliteral hmem'
    · rw [hfloat] at hnumber
      cases hnumber

/-! ## The parser of the standard -/

open Classical in
/-- The parser that reads the texts of the standard up to the depth, every float as the one there is. -/
noncomputable def standardFromStr (text : String) : Except String (Value Unit) :=
  if h : ∃ value raw, Text Json.standard (bytesOf text) raw ∧ raw.nested 127 = true ∧
      spelled (fun _ => some ()) raw = some value then .ok h.choose
  else .error "expected value"

theorem standardFromStr_eq_ok {text : String} {value : Value Unit} (h : standardFromStr text = .ok value) :
    ∃ raw, Text Json.standard (bytesOf text) raw ∧ raw.nested 127 = true ∧
      spelled (fun _ => some ()) raw = some value := by
  unfold standardFromStr at h
  split at h
  · next hex =>
    cases h
    exact hex.choose_spec
  · cases h

/-- That a text has one tree only makes it a parser. -/
theorem standardFromStr_serde : Serde (fun _ => some ()) standardFromStr where
  accepts text value h := by
    obtain ⟨raw, htext, hnested, -⟩ := standardFromStr_eq_ok h
    exact ⟨raw, htext, hnested⟩
  reads text raw value htext _ h := by
    obtain ⟨raw', htext', -, hspelled⟩ := standardFromStr_eq_ok h
    rw [Json.text_unique htext' htext] at hspelled
    exact ⟨value, hspelled, rfl⟩
  total text raw value htext hnested hspelled := by
    have hex : ∃ value raw, Text Json.standard (bytesOf text) raw ∧ raw.nested 127 = true ∧
        spelled (fun _ => some ()) raw = some value := ⟨value, raw, htext, hnested, hspelled⟩
    exact ⟨hex.choose, dif_pos hex⟩

theorem canonicalize_canonical_standard : Canonical (fun _ => some ()) (fun _ => []) standardFromStr 127 :=
  canonicalize_canonical _ _ _ standardFromStr_serde

/-- An empty array, inside so many others. -/
def nestedArrays : Nat → Value Unit
  | 0 => .array []
  | n + 1 => .array [nestedArrays n]

/-- The tree of arrays in one another is as deep as there are arrays. -/
theorem nestedArrays_shape (n : Nat) : (nestedArrays n).exact = true ∧ (nestedArrays n).ordered = nestedArrays n ∧
    ((nestedArrays n).raw fun _ => []).distinct = true ∧ ((nestedArrays n).raw fun _ => []).nested n = false ∧
    ((nestedArrays n).raw fun _ => []).nested (n + 1) = true := by
  induction n with
  | zero => exact ⟨rfl, rfl, rfl, rfl, rfl⟩
  | succ n ih =>
    obtain ⟨hexact, hordered, hdistinct, hdeep, hnested⟩ := ih
    refine ⟨?_, ?_, ?_, ?_, ?_⟩
    · rw [nestedArrays, Value.exact, Value.exactItems, hexact]
      rfl
    · rw [nestedArrays, Value.ordered_array, List.map_singleton, hordered]
    · rw [nestedArrays, Value.raw, Value.rawItems, Value.rawItems, Raw.distinct, Raw.distinctItems, hdistinct]
      rfl
    · rw [nestedArrays, Value.raw, Value.rawItems, Value.rawItems, Raw.nested, Raw.nestedItems, hdeep]
      rfl
    · rw [nestedArrays, Value.raw, Value.rawItems, Value.rawItems, Raw.nested, Raw.nestedItems, hnested]
      rfl

theorem denotes_nestedArrays (n : Nat) :
    Denotes (fun _ => some ()) (n + 1) (String.ofList (emit (fun _ => []) (nestedArrays n))) (nestedArrays n) := by
  obtain ⟨hexact, hordered, hdistinct, -, hnested⟩ := nestedArrays_shape n
  refine ⟨(nestedArrays n).raw fun _ => [], nestedArrays n, ?_, hdistinct, hnested, spelled_raw _ _ hexact, rfl⟩
  rw [bytesOf, String.toList_ofList, encode_emit, hordered]
  exact Raw.text_write (standard_raw _ hexact)

/-- A text of 128 arrays inside one another has no canonical form. -/
theorem canonicalize_refuses_depth :
    ¬ ∀ depth, Canonical (fun _ => some ()) (fun _ => []) standardFromStr depth := by
  intro h
  obtain ⟨hexact, hordered, -, hdeep, -⟩ := nestedArrays_shape 127
  obtain ⟨out, hout, -⟩ := (h 128).form _ _ (denotes_nestedArrays 127) hexact
  obtain ⟨parsed, hparsed, -⟩ := canonicalize_eq_ok hout
  obtain ⟨-, hfromStr⟩ := (parseStrict_eq_ok _ _ parsed).mp hparsed
  obtain ⟨raw, htext, hnested⟩ := standardFromStr_serde.accepts _ parsed hfromStr
  rw [bytesOf, String.toList_ofList, encode_emit, hordered] at htext
  obtain rfl := Json.text_unique htext (Raw.text_write (standard_raw _ hexact))
  rw [hdeep] at hnested
  cases hnested

end SupraHarness.Llm
