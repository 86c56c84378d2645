import SupraHarness.Llm.Torn

/-!
# Strict parsing

`parse_strict` is the scanner in front of the JSON parser. Every JSON text is a text of the loose
dialect, so the scanner lets the texts through that repeat no key and names a repeated key in the
others. What is left is the texts that come to a torn escape, where the scanner panics instead of
letting the parser refuse them.
-/
namespace SupraHarness.Llm

open Results (bind_eq_ok)
open Json (Ch Chars Ws Reads Raw Part Text length_of_ws)

namespace Scanner

/-! ## JSON texts are texts of the loose dialect -/

/-- Behind a value stands a structural character, or nothing. -/
def Ended (rest : List UInt8) : Prop := ∀ byte ∈ rest.head?, structural byte = true

theorem ended_of_ws {text rest : List UInt8} (h : Ws text rest) (hrest : Ended rest) :
    Ended text := by
  obtain ⟨w, hw, rfl⟩ := h
  cases w with
  | nil => exact hrest
  | cons first w =>
    intro byte hb
    obtain rfl : first = byte := Option.some.inj hb
    rw [structural, hw first List.mem_cons_self, Bool.or_true]

theorem ended_cons {byte : UInt8} (h : structural byte = true) (rest : List UInt8) :
    Ended (byte :: rest) := by
  intro b hb
  obtain rfl : byte = b := Option.some.inj hb
  exact h

theorem structural_not_number {byte : UInt8} (h : structural byte = true) :
    Json.isNumberByte byte = false := by
  simp only [structural, Json.isWs, Bool.or_eq_true, beq_iff_eq] at h
  rcases h with ((rfl | rfl) | rfl) | (((rfl | rfl) | rfl) | rfl) <;> rfl

theorem number_plain {byte : UInt8} (h : Json.isNumberByte byte = true) :
    structural byte = false := by
  cases hs : structural byte with
  | false => rfl
  | true =>
    rw [structural_not_number hs] at h
    cases h

theorem ne_number {byte other : UInt8} (h : Json.isNumberByte byte = true)
    (hother : Json.isNumberByte other = false) : byte ≠ other := by
  rintro rfl
  rw [h] at hother
  cases hother

theorem skipped_of_number {lexeme rest : List UInt8} (h : Json.isNumber lexeme = true)
    (hrest : Ended rest) : Skipped lexeme rest := by
  obtain ⟨hne, hbytes⟩ := Json.isNumber_bytes h
  cases lexeme with
  | nil => exact absurd rfl hne
  | cons first lexeme =>
    have hfirst := hbytes first List.mem_cons_self
    refine ⟨fun byte hb => number_plain (hbytes byte hb), hrest, nofun, ?_, ?_⟩
    · intro byte hb
      obtain rfl : first = byte := Option.some.inj hb
      refine ⟨?_, ?_⟩
      · simp only [List.mem_cons, List.not_mem_nil, or_false, not_or]
        exact ⟨ne_number hfirst rfl, ne_number hfirst rfl, ne_number hfirst rfl⟩
      · have := number_plain hfirst
        simp only [structural, Bool.or_eq_false_iff] at this
        exact this.2
    · intro literal hl
      simp only [Json.literals, List.mem_cons, List.not_mem_nil, or_false] at hl
      rcases hl with rfl | rfl | rfl
      · exact not_true (ne_number hfirst rfl) _
      · exact not_false (ne_number hfirst rfl) _
      · exact not_null (ne_number hfirst rfl) _

theorem fromStrRadix_of_hexFrom {hex : List UInt8} {code : Nat} (hlen : hex.length = 4)
    (h : Json.hexFrom 0 hex = some code) : fromStrRadix hex = some code := by
  cases hex with
  | nil => cases hlen
  | cons byte bytes =>
    rw [fromStrRadix, if_neg, h]
    rintro rfl
    cases h

theorem Ch.loosen {text rest : List UInt8} {c : Char} (h : Ch Json.standard text c rest) :
    Ch loose text c rest := by
  cases h with
  | plain c rest _ hquote hslash => exact .plain c rest rfl hquote hslash
  | short byte c rest h => exact .short byte c rest h
  | code hex code rest hlen h hhigh hlow =>
    exact .code hex code rest hlen (fromStrRadix_of_hexFrom hlen h) hhigh hlow
  | pair hex hex' high low rest hlen hlen' h h' hhigh hlow =>
    exact .pair hex hex' high low rest hlen hlen' (fromStrRadix_of_hexFrom hlen h)
      (fromStrRadix_of_hexFrom hlen' h') hhigh hlow

theorem Chars.loosen {text rest : List UInt8} {cs : List Char}
    (h : Chars Json.standard text cs rest) : Chars loose text cs rest := by
  induction h with
  | nil rest => exact .nil rest
  | cons h _ ih => exact .cons (Ch.loosen h) ih

theorem Reads.loosen {part : Part} {text rest : List UInt8} {raw : Raw}
    (h : Reads Json.standard part text raw rest) (hrest : part = .value → Ended rest) :
    Reads loose part text raw rest := by
  induction h with
  | scalar h =>
    refine .scalar ?_
    rcases h with h | h
    · exact .inl h
    · exact .inr (skipped_of_number h (hrest rfl))
  | string h => exact .string (Chars.loosen h)
  | emptyArray h => exact .emptyArray h
  | array _ ih => exact .array (ih nofun)
  | emptyObject h => exact .emptyObject h
  | object _ ih => exact .object (ih nofun)
  | lastElement hw _ he ih =>
    exact .lastElement hw (ih fun _ => ended_of_ws he (ended_cons rfl _)) he
  | element hw _ he _ ih ih' =>
    exact .element hw (ih fun _ => ended_of_ws he (ended_cons rfl _)) he (ih' nofun)
  | lastMember hw hk hc hw' _ he ih =>
    have hlast := ih fun _ => ended_of_ws he (ended_cons rfl _)
    exact .lastMember hw (Chars.loosen hk) hc hw' hlast he
  | member hw hk hc hw' _ he _ ih ih' =>
    have hfirst := ih fun _ => ended_of_ws he (ended_cons rfl _)
    exact .member hw (Chars.loosen hk) hc hw' hfirst he (ih' nofun)

/-- The scanner's verdict on a JSON text. -/
theorem run_text {text : List UInt8} {raw : Raw} (hv : Utf8.Valid text)
    (h : Text Json.standard text raw) :
    if raw.distinct then run text = .ok () else ∃ key, run text = .error (duplicateKey key) := by
  obtain ⟨text₁, rest, hw, hread, hend⟩ := h
  have hloose : Reads loose .value text₁ raw rest := Reads.loosen hread fun _ =>
    ended_of_ws hend nofun
  have hle := length_of_ws hw
  have houtcome : Outcome raw.distinct rest (value (turns text.length) text₁) :=
    reads_run hloose (valid_of_ws hw hv) _ (by rw [turns]; omega)
  rw [← value_ws hw] at houtcome
  have hnil : ws rest = [] := ws_eq hend nofun
  rw [run]
  cases hd : raw.distinct with
  | true =>
    rw [hd] at houtcome
    obtain houtcome : value (turns text.length) text = .ok rest := houtcome
    simp only [houtcome, bind, Except.bind, hnil, ne_eq, not_true_eq_false, if_false, if_true]
  | false =>
    rw [hd] at houtcome
    obtain ⟨key, houtcome⟩ : ∃ key, value (turns text.length) text = .error (duplicateKey key) :=
      houtcome
    exact ⟨key, by rw [houtcome]; rfl⟩

/-- A scan of a whole text returns, unless the text is torn, where it panics. -/
theorem run_stops_iff {text : List UInt8} (hv : Utf8.Valid text) :
    (run text ≠ .error .exhausted ∧ run text ≠ .error .panic) ↔
      ¬ ∃ text₁, Ws text text₁ ∧ Tears .value [] text₁ := by
  have hle := length_of_ws (ws_spec text)
  constructor
  · rintro ⟨-, hpanic⟩ ⟨text₁, hw, ht⟩
    have hle := length_of_ws hw
    have hvalue : value (turns text.length) text₁ = .error .panic :=
      tears_run ht (valid_of_ws hw hv) _ (by rw [turns]; omega)
    apply hpanic
    rw [run, value_ws hw, hvalue]
    rfl
  · intro hwhole
    have hends := (scans_end (turns text.length)).1 text hv (by rw [turns]; omega)
    rw [run]
    rcases hends with ⟨rest, -, heq⟩ | ⟨ht, -⟩ | ⟨e, heq⟩
    · rw [heq]
      by_cases hrest : ws rest = [] <;>
        simp [bind, Except.bind, hrest, invalid]
    · exact absurd ⟨_, ws_spec text, ht⟩ hwhole
    · rw [heq]
      exact ⟨nofun, nofun⟩

end Scanner

/-! ## The whole of it -/

/-- A text that comes to a torn escape, read as the loose dialect, before a key is repeated. -/
def IsTorn (input : String) : Prop :=
  ∃ text, Ws (bytesOf input) text ∧ Scanner.Tears .value [] text

variable {φ : Type}

/-- What strict parsing is for: it returns, it reads the JSON texts without a repeated key as the
JSON parser does, and it refuses the others, those with a repeated key by that name. -/
structure Strict (fromStr : String → Except String (Value φ)) (input : String) : Prop where
  terminates : parseStrict fromStr input ≠ .error .exhausted
  noPanic : parseStrict fromStr input ≠ .error .panic
  reads : ∀ value, parseStrict fromStr input = .ok value ↔
    fromStr input = .ok value ∧ ∃ raw, Text Json.standard (bytesOf input) raw ∧ raw.distinct = true
  duplicates : ∀ raw, Text Json.standard (bytesOf input) raw → raw.distinct = false →
    ∃ key, parseStrict fromStr input = .error (duplicateKey key)

theorem valid_bytesOf (input : String) : Utf8.Valid (bytesOf input) := ⟨input.toList, rfl⟩

theorem parseStrict_of_error (fromStr : String → Except String (Value φ)) {input : String}
    {stop : Stop} (h : Scanner.run (bytesOf input) = .error stop) :
    parseStrict fromStr input = .error stop := by
  rw [parseStrict, rejectDuplicates, h]
  rfl

theorem parseStrict_eq_ok (fromStr : String → Except String (Value φ)) (input : String)
    (value : Value φ) : parseStrict fromStr input = .ok value ↔
      Scanner.run (bytesOf input) = .ok () ∧ fromStr input = .ok value := by
  rw [parseStrict, rejectDuplicates, bind_eq_ok]
  constructor
  · rintro ⟨_, hrun, h⟩
    refine ⟨hrun, ?_⟩
    split at h
    · cases h
    · next value' hparse =>
      cases h
      exact hparse
  · rintro ⟨hrun, hparse⟩
    exact ⟨(), hrun, by rw [hparse]⟩

theorem parseStrict_stops_iff (fromStr : String → Except String (Value φ)) (input : String)
    {stop : Stop} (hstop : ∀ e, stop ≠ .err e) :
    parseStrict fromStr input = .error stop ↔ Scanner.run (bytesOf input) = .error stop := by
  constructor
  · intro h
    cases hrun : Scanner.run (bytesOf input) with
    | error stop' =>
      rw [parseStrict_of_error fromStr hrun] at h
      rw [Except.error.inj h]
    | ok u =>
      rw [parseStrict, rejectDuplicates, hrun] at h
      simp only [bind, Except.bind] at h
      split at h
      · exact absurd (Except.error.inj h).symm (hstop _)
      · cases h
  · exact parseStrict_of_error fromStr

/-- Strict parsing does what it is for on the texts that are not torn, and on no other. -/
theorem parseStrict_strict_iff (fromStr : String → Except String (Value φ))
    (hserde : ∀ text value, fromStr text = .ok value →
      ∃ raw, Text Json.standard (bytesOf text) raw)
    (input : String) : Strict fromStr input ↔ ¬ IsTorn input := by
  have hv := valid_bytesOf input
  have hexhausted := @parseStrict_stops_iff _ fromStr input .exhausted nofun
  have hpanic := @parseStrict_stops_iff _ fromStr input .panic nofun
  constructor
  · intro h
    exact (Scanner.run_stops_iff hv).mp
      ⟨fun hrun => h.terminates (hexhausted.mpr hrun), fun hrun => h.noPanic (hpanic.mpr hrun)⟩
  · intro hwhole
    obtain ⟨hreturns, hsafe⟩ := (Scanner.run_stops_iff hv).mpr hwhole
    refine ⟨fun h => hreturns (hexhausted.mp h), fun h => hsafe (hpanic.mp h), ?_, ?_⟩
    · intro value
      rw [parseStrict_eq_ok, and_comm]
      refine and_congr_right fun hparse => ?_
      constructor
      · intro hrun
        obtain ⟨raw, htext⟩ := hserde input value hparse
        have hscan := Scanner.run_text hv htext
        refine ⟨raw, htext, ?_⟩
        by_contra hd
        rw [if_neg hd, hrun] at hscan
        obtain ⟨key, hkey⟩ := hscan
        cases hkey
      · rintro ⟨raw, htext, hd⟩
        have hscan := Scanner.run_text hv htext
        rwa [if_pos hd] at hscan
    · intro raw htext hd
      have hscan := Scanner.run_text hv htext
      rw [hd, if_neg Bool.false_ne_true] at hscan
      obtain ⟨key, hkey⟩ := hscan
      exact ⟨key, parseStrict_of_error fromStr hkey⟩

theorem parseStrict_strict_iff_array :
    Strict (fun text => if text = "[1]" then .ok (.array [.number (.posInt 1)])
      else .error "expected value" : String → Except String (Value Unit)) "[1]" ↔ ¬ IsTorn "[1]" :=
  parseStrict_strict_iff _ (by
    intro text value h
    split at h
    · next htext =>
      have hbytes : bytesOf "[1]" = 0x5B :: ([0x31] ++ [0x5D]) := rfl
      have hone : Reads Json.standard .value ([0x31] ++ [0x5D]) (.scalar [0x31]) [0x5D] :=
        .scalar (.inr rfl)
      rw [htext, hbytes]
      exact ⟨_, _, [], ⟨[], nofun, rfl⟩, .array (.lastElement ⟨[], nofun, rfl⟩ hone
        ⟨[], nofun, rfl⟩), ⟨[], nofun, rfl⟩⟩
    · cases h) "[1]"

/-- An escape with three digits and an accented letter. -/
theorem parseStrict_tears :
    ¬ Strict (fun _ => .error "invalid escape" : String → Except String (Value Unit))
      "\"\\u000é\"" := by
  intro h
  exact h.noPanic rfl

end SupraHarness.Llm
