import SupraHarness.Llm.Loose

/-!
# Strict parsing

What the scanner makes of a text: it accepts the texts of its loose dialect in which no object
repeats a key, it names a repeated key in the others, and it tears on those that come to a torn
escape first. Every JSON text is one of the loose dialect, so in front of the JSON parser the
scanner refuses the texts with a repeated key and no others.
-/
namespace SupraHarness.Llm.Scanner

open Results (bind_eq_ok bind_eq_error)
open Json (Ch Chars Ws Reads Raw Part length_of_ws length_of_chars reads_length isWs_ascii)

/-! ## Whitespace -/

theorem ws_of_ws {text rest : List UInt8} (h : Ws text rest) : ws text = ws rest :=
  Json.skipWs_of_ws h

theorem ws_eq {text rest : List UInt8} (h : Ws text rest)
    (hhead : ∀ byte ∈ rest.head?, Json.isWs byte = false) : ws text = rest :=
  Json.skipWs_eq h hhead

theorem ws_cons_eq {text rest : List UInt8} {byte : UInt8} (h : Ws text (byte :: rest))
    (hbyte : Json.isWs byte = false) : ws text = byte :: rest :=
  Json.skipWs_cons_eq h hbyte

theorem ws_spec (text : List UInt8) : Ws text (ws text) := Json.ws_skipWs text

theorem ws_head (text : List UInt8) : ∀ byte ∈ (ws text).head?, Json.isWs byte = false :=
  Json.skipWs_head text

theorem valid_of_ws {text rest : List UInt8} (h : Ws text rest) (hv : Utf8.Valid text) :
    Utf8.Valid rest := by
  obtain ⟨w, hw, rfl⟩ := h
  exact valid_append_tail hv fun byte hb => isWs_ascii (hw byte hb)

theorem value_ws {text rest : List UInt8} (h : Ws text rest) (fuel : Nat) :
    value fuel text = value fuel rest := by
  cases fuel with
  | zero => rfl
  | succ fuel => rw [value, value, ws_of_ws h]

theorem elements_ws {text rest : List UInt8} (h : Ws text rest) (fuel : Nat) :
    elements fuel text = elements fuel rest := by
  cases fuel with
  | zero => rfl
  | succ fuel => rw [elements, elements, value_ws h]

theorem members_ws {text rest : List UInt8} (h : Ws text rest) (fuel : Nat)
    (seen : List (List Char)) : members fuel seen text = members fuel seen rest := by
  cases fuel with
  | zero => rfl
  | succ fuel => rw [members, members, ws_of_ws h]

/-! ## What is skipped -/

theorem structural_ascii {byte : UInt8} (h : structural byte = true) : byte < 0x80 := by
  simp only [structural, Bool.or_eq_true, beq_iff_eq] at h
  rcases h with ((rfl | rfl) | rfl) | h
  · decide
  · decide
  · decide
  · exact isWs_ascii h

theorem skip_eq {lexeme rest : List UInt8} (h : Skipped lexeme rest) :
    skip (lexeme ++ rest) = rest := by
  rw [skip, List.dropWhile_append_of_pos]
  · cases rest with
    | nil => rfl
    | cons byte rest =>
      have hs := h.ended byte rfl
      rw [List.dropWhile_cons_of_neg (by rw [hs]; decide)]
  · intro byte hb
    rw [h.plain byte hb]
    rfl

/-- What is left of a text with its front skipped, as a scalar of the loose dialect. -/
theorem skipped_skip {text : List UInt8} (hne : text ≠ [])
    (hhead : ∀ byte ∈ text.head?, byte ∉ [0x7B, 0x5B, 0x22] ∧ Json.isWs byte = false)
    (hliteral : ∀ literal ∈ Json.literals, ¬ literal <+: text) :
    ∃ lexeme, text = lexeme ++ skip text ∧ Skipped lexeme (skip text) := by
  have hsplit : text.takeWhile (fun byte => !structural byte) ++ skip text = text :=
    List.takeWhile_append_dropWhile
  refine ⟨text.takeWhile fun byte => !structural byte, hsplit.symm, ?_, ?_, ?_, ?_, ?_⟩
  · intro byte hb
    have := List.all_eq_true.mp (List.all_takeWhile (p := fun byte => !structural byte)) byte hb
    simpa using this
  · intro byte hb
    have h := List.head?_dropWhile_not (fun byte => !structural byte) text
    rw [skip] at hb
    rw [Option.mem_def.mp hb] at h
    simpa using h
  · rw [hsplit]
    exact hne
  · rw [hsplit]
    exact hhead
  · rw [hsplit]
    exact hliteral

theorem literal_eq {lexeme text : List UInt8} (hv : Utf8.Valid text) :
    literal lexeme text =
      .ok (if lexeme <+: text then text.drop lexeme.length else skip text) := by
  have hb := (boundary_iff _).mpr hv.startsWhole
  rw [literal, sliceFrom, if_pos hb]
  by_cases h : lexeme <+: text
  · rw [if_pos h]
    exact if_pos (List.isPrefixOf_iff_prefix.mpr h)
  · rw [if_neg h]
    exact if_neg fun hp => h (List.isPrefixOf_iff_prefix.mp hp)

/-- The value the scanner reads that is no container and no string. -/
def scalarRest (text : List UInt8) : List UInt8 :=
  if Json.trueLexeme <+: text then text.drop 4
  else if Json.falseLexeme <+: text then text.drop 5
  else if Json.nullLexeme <+: text then text.drop 4
  else skip text

theorem head_eq {lexeme : List UInt8} {byte first : UInt8} {rest : List UInt8}
    (h : first :: lexeme <+: byte :: rest) : byte = first := by
  obtain ⟨tail, htail⟩ := h
  exact (List.cons.inj htail).1.symm

theorem not_true {byte : UInt8} (h : byte ≠ 0x74) (rest : List UInt8) :
    ¬ Json.trueLexeme <+: byte :: rest := fun hp => h (head_eq hp)

theorem not_false {byte : UInt8} (h : byte ≠ 0x66) (rest : List UInt8) :
    ¬ Json.falseLexeme <+: byte :: rest := fun hp => h (head_eq hp)

theorem not_null {byte : UInt8} (h : byte ≠ 0x6E) (rest : List UInt8) :
    ¬ Json.nullLexeme <+: byte :: rest := fun hp => h (head_eq hp)

theorem value_scalar {text rest : List UInt8} {byte : UInt8} (hv : Utf8.Valid (byte :: rest))
    (h : ws text = byte :: rest) (hbyte : byte ∉ [0x7B, 0x5B, 0x22]) (fuel : Nat) :
    value (fuel + 1) text = .ok (scalarRest (byte :: rest)) := by
  simp only [List.mem_cons, List.not_mem_nil, or_false, not_or] at hbyte
  rw [value, h]
  simp only [if_neg hbyte.1, if_neg hbyte.2.1, if_neg hbyte.2.2, literal_eq hv, scalarRest]
  by_cases ht : byte = 0x74
  · subst ht
    rw [if_pos rfl, if_neg (not_false (by decide) rest), if_neg (not_null (by decide) rest)]
    rfl
  · rw [if_neg ht, if_neg (not_true ht rest)]
    by_cases hf : byte = 0x66
    · subst hf
      rw [if_pos rfl, if_neg (not_null (by decide) rest)]
      rfl
    · rw [if_neg hf, if_neg (not_false hf rest)]
      by_cases hn : byte = 0x6E
      · subst hn
        rw [if_pos rfl]
        rfl
      · rw [if_neg hn, if_neg (not_null hn rest)]

theorem scalarRest_spec {text : List UInt8} (hne : text ≠ [])
    (hhead : ∀ byte ∈ text.head?, byte ∉ [0x7B, 0x5B, 0x22] ∧ Json.isWs byte = false) :
    ∃ lexeme, text = lexeme ++ scalarRest text ∧ loose.scalar lexeme (scalarRest text) := by
  have hmem : ∀ {lexeme}, lexeme ∈ Json.literals → lexeme <+: text →
      text = lexeme ++ text.drop lexeme.length := by
    intro lexeme _ hp
    obtain ⟨tail, rfl⟩ := hp
    rw [List.drop_left]
  rw [scalarRest]
  by_cases ht : Json.trueLexeme <+: text
  · rw [if_pos ht]
    exact ⟨_, hmem (by decide) ht, .inl (by decide)⟩
  · rw [if_neg ht]
    by_cases hf : Json.falseLexeme <+: text
    · rw [if_pos hf]
      exact ⟨_, hmem (by decide) hf, .inl (by decide)⟩
    · rw [if_neg hf]
      by_cases hn : Json.nullLexeme <+: text
      · rw [if_pos hn]
        exact ⟨_, hmem (by decide) hn, .inl (by decide)⟩
      · rw [if_neg hn]
        obtain ⟨lexeme, heq, hskip⟩ := skipped_skip hne hhead (by
          intro literal hl
          simp only [Json.literals, List.mem_cons, List.not_mem_nil, or_false] at hl
          rcases hl with rfl | rfl | rfl
          · exact ht
          · exact hf
          · exact hn)
        exact ⟨lexeme, heq, .inr hskip⟩

theorem scalarRest_eq {lexeme rest : List UInt8} (h : loose.scalar lexeme rest) :
    scalarRest (lexeme ++ rest) = rest := by
  rcases h with h | h
  · simp only [Json.literals, List.mem_cons, List.not_mem_nil, or_false] at h
    rcases h with rfl | rfl | rfl
    · rw [scalarRest, if_pos (List.prefix_append _ _)]
      rfl
    · have ht : ¬ Json.trueLexeme <+: Json.falseLexeme ++ rest := not_true (by decide) _
      rw [scalarRest, if_neg ht, if_pos (List.prefix_append _ _)]
      rfl
    · have ht : ¬ Json.trueLexeme <+: Json.nullLexeme ++ rest := not_true (by decide) _
      have hf : ¬ Json.falseLexeme <+: Json.nullLexeme ++ rest := not_false (by decide) _
      rw [scalarRest, if_neg ht, if_neg hf, if_pos (List.prefix_append _ _)]
      rfl
  · rw [scalarRest, if_neg (h.literal _ (by decide)), if_neg (h.literal _ (by decide)),
      if_neg (h.literal _ (by decide)), skip_eq h]

/-- A scalar starts with a byte that opens nothing. -/
theorem scalar_head {lexeme rest : List UInt8} (h : loose.scalar lexeme rest) :
    ∃ byte tail, lexeme ++ rest = byte :: tail ∧ byte ∉ [0x7B, 0x5B, 0x22] ∧
      Json.isWs byte = false := by
  rcases h with h | h
  · simp only [Json.literals, List.mem_cons, List.not_mem_nil, or_false] at h
    rcases h with rfl | rfl | rfl
    · exact ⟨0x74, _, rfl, by decide, by decide⟩
    · exact ⟨0x66, _, rfl, by decide, by decide⟩
    · exact ⟨0x6E, _, rfl, by decide, by decide⟩
  · cases htext : lexeme ++ rest with
    | nil => exact absurd htext h.nonempty
    | cons byte tail => exact ⟨byte, tail, rfl, h.head byte (by rw [htext]; rfl)⟩

theorem valid_of_scalar {lexeme rest : List UInt8} (h : loose.scalar lexeme rest)
    (hv : Utf8.Valid (lexeme ++ rest)) : Utf8.Valid rest := by
  rcases h with h | h
  · refine valid_append_tail hv ?_
    simp only [Json.literals, List.mem_cons, List.not_mem_nil, or_false] at h
    rcases h with rfl | rfl | rfl <;> decide
  · refine (hv.split ?_).2
    intro byte hb
    exact continuation_of_lt (structural_ascii (h.ended byte hb))

/-! ## One turn of each loop -/

theorem value_string {text tail : List UInt8} (h : ws text = 0x22 :: tail) (fuel : Nat) :
    value (fuel + 1) text = (string (tail.length + 1) tail).bind fun r => .ok r.2 := by
  rw [value, h]
  rfl

theorem value_empty_object {text tail rest : List UInt8} (h : ws text = 0x7B :: tail)
    (hclose : ws tail = 0x7D :: rest) (fuel : Nat) : value (fuel + 1) text = .ok rest := by
  rw [value, h]
  simp only [if_true, hclose]

theorem value_object {text tail : List UInt8} (h : ws text = 0x7B :: tail)
    (hopen : ∀ rest, ws tail ≠ 0x7D :: rest) (fuel : Nat) :
    value (fuel + 1) text = members fuel [] tail := by
  rw [value, h, members_ws (ws_spec tail)]
  simp only [if_true]

theorem value_empty_array {text tail rest : List UInt8} (h : ws text = 0x5B :: tail)
    (hclose : ws tail = 0x5D :: rest) (fuel : Nat) : value (fuel + 1) text = .ok rest := by
  rw [value, h]
  simp only [if_neg (show ¬ (0x5B : UInt8) = 0x7B by decide), if_true, hclose]

theorem value_array {text tail : List UInt8} (h : ws text = 0x5B :: tail)
    (hopen : ∀ rest, ws tail ≠ 0x5D :: rest) (fuel : Nat) :
    value (fuel + 1) text = elements fuel tail := by
  rw [value, h, elements_ws (ws_spec tail)]
  simp only [if_neg (show ¬ (0x5B : UInt8) = 0x7B by decide), if_true]

/-- What follows an element of an array. -/
def afterElement (fuel : Nat) (rest : List UInt8) : Except Stop (List UInt8) :=
  match ws rest with
  | [] => invalid "unterminated array"
  | next :: rest =>
    if next = 0x5D then .ok rest
    else if next ≠ 0x2C then invalid "expected ',' or ']'"
    else elements fuel rest

theorem elements_succ (fuel : Nat) (text : List UInt8) :
    elements (fuel + 1) text = (value fuel text).bind (afterElement fuel) := by
  rw [elements]
  rfl

/-- What follows the value of a member. -/
def afterMember (fuel : Nat) (seen : List (List Char)) (rest : List UInt8) :
    Except Stop (List UInt8) :=
  match ws rest with
  | [] => invalid "unterminated object"
  | next :: rest =>
    if next = 0x7D then .ok rest
    else if next ≠ 0x2C then invalid "expected ',' or '\x7d'"
    else members fuel seen rest

/-- What follows a key. -/
def afterKey (fuel : Nat) (seen : List (List Char)) (key : List Char) (rest : List UInt8) :
    Except Stop (List UInt8) :=
  if key ∈ seen then .error (duplicateKey key)
  else
    match ws rest with
    | 0x3A :: rest => (value fuel rest).bind (afterMember fuel (key :: seen))
    | _ => invalid "expected ':' after an object key"

theorem members_quote {text tail : List UInt8} (h : ws text = 0x22 :: tail) (fuel : Nat)
    (seen : List (List Char)) :
    members (fuel + 1) seen text =
      (string (tail.length + 1) tail).bind fun r => afterKey fuel seen r.1 r.2 := by
  rw [members, h]
  rfl

/-! ## Texts of the loose dialect -/

theorem valid_of_chars {text rest : List UInt8} {cs : List Char} (hv : Utf8.Valid text)
    (h : Chars loose text cs rest) : Utf8.Valid rest :=
  (string_of_chars hv h (Nat.lt_succ_self _)).2

theorem valid_of_ws_cons {text rest : List UInt8} {byte : UInt8} (h : Ws text (byte :: rest))
    (hv : Utf8.Valid text) (hb : byte < 0x80) : Utf8.Valid rest :=
  valid_tail (valid_of_ws h hv) hb

theorem reads_valid {text rest : List UInt8} {raw : Raw} {part : Part}
    (h : Reads loose part text raw rest) (hv : Utf8.Valid text) : Utf8.Valid rest := by
  induction h with
  | scalar h => exact valid_of_scalar h hv
  | string h => exact valid_of_chars (valid_tail hv (by decide)) h
  | emptyArray h => exact valid_of_ws_cons h (valid_tail hv (by decide)) (by decide)
  | array _ ih => exact ih (valid_tail hv (by decide))
  | emptyObject h => exact valid_of_ws_cons h (valid_tail hv (by decide)) (by decide)
  | object _ ih => exact ih (valid_tail hv (by decide))
  | lastElement hw _ he ih => exact valid_of_ws_cons he (ih (valid_of_ws hw hv)) (by decide)
  | element hw _ he _ ih ih' =>
    exact ih' (valid_of_ws_cons he (ih (valid_of_ws hw hv)) (by decide))
  | lastMember hw hk hc hw' _ he ih =>
    have hvk := valid_of_chars (valid_of_ws_cons hw hv (by decide)) hk
    have hvv := valid_of_ws hw' (valid_of_ws_cons hc hvk (by decide))
    exact valid_of_ws_cons he (ih hvv) (by decide)
  | member hw hk hc hw' _ he _ ih ih' =>
    have hvk := valid_of_chars (valid_of_ws_cons hw hv (by decide)) hk
    have hvv := valid_of_ws hw' (valid_of_ws_cons hc hvk (by decide))
    exact ih' (valid_of_ws_cons he (ih hvv) (by decide))

/-- No member of an object has one of these keys. -/
def fresh (seen : List (List Char)) : Raw → Bool
  | .object items => items.all fun item => decide (item.1 ∉ seen)
  | _ => true

/-- How a scan ends on a text of the dialect, given whether its keys are fresh and distinct. -/
def Outcome (good : Bool) (rest : List UInt8) (result : Except Stop (List UInt8)) : Prop :=
  if good then result = .ok rest else ∃ key, result = .error (duplicateKey key)

theorem distinct_element (raw : Raw) (raws : List Raw) :
    (Raw.array (raw :: raws)).distinct = (raw.distinct && (Raw.array raws).distinct) := by
  rfl

theorem good_member (seen : List (List Char)) (key : List Char) (raw : Raw)
    (items : List (List Char × Raw)) :
    ((Raw.object ((key, raw) :: items)).distinct && fresh seen (.object ((key, raw) :: items))) =
      (decide (key ∉ seen) &&
        (raw.distinct && ((Raw.object items).distinct && fresh (key :: seen) (.object items)))) := by
  have hfresh : fresh (key :: seen) (.object items) = true ↔
      key ∉ items.map Prod.fst ∧ fresh seen (.object items) = true := by
    simp only [fresh, List.all_eq_true, decide_eq_true_eq, List.mem_cons, not_or, List.mem_map,
      not_exists, not_and]
    constructor
    · intro h
      exact ⟨fun item hitem => (h item hitem).1, fun item hitem => (h item hitem).2⟩
    · intro h item hitem
      exact ⟨h.1 item hitem, h.2 item hitem⟩
  rw [Bool.eq_iff_iff]
  simp only [Bool.and_eq_true, hfresh, Raw.distinct, Raw.distinctMembers, List.map_cons,
    List.nodup_cons, decide_eq_true_eq]
  simp only [fresh, List.all_cons, Bool.and_eq_true, decide_eq_true_eq]
  tauto

/-- What a scan makes of each part of the dialect. -/
def Runs (part : Part) (text rest : List UInt8) (raw : Raw) : Prop :=
  match part with
  | .value => ∀ fuel, 2 * text.length + 1 ≤ fuel → Outcome raw.distinct rest (value fuel text)
  | .elements => ∀ fuel, 2 * text.length + 2 ≤ fuel → Outcome raw.distinct rest (elements fuel text)
  | .members => ∀ seen fuel, 2 * text.length + 2 ≤ fuel →
      Outcome (raw.distinct && fresh seen raw) rest (members fuel seen text)

theorem Outcome.bind {good good' : Bool} {rest rest' : List UInt8}
    {x : Except Stop (List UInt8)} {f : List UInt8 → Except Stop (List UInt8)}
    (h : Outcome good rest x) (hf : Outcome good' rest' (f rest)) :
    Outcome (good && good') rest' (x.bind f) := by
  cases good with
  | true =>
    obtain rfl : x = .ok rest := h
    exact hf
  | false =>
    obtain ⟨key, rfl⟩ : ∃ key, x = .error (duplicateKey key) := h
    exact ⟨key, rfl⟩

theorem afterElement_close {text rest : List UInt8} (h : Ws text (0x5D :: rest)) (fuel : Nat) :
    afterElement fuel text = .ok rest := by
  rw [afterElement, ws_cons_eq h (by decide)]
  rfl

theorem afterElement_comma {text rest : List UInt8} (h : Ws text (0x2C :: rest)) (fuel : Nat) :
    afterElement fuel text = elements fuel rest := by
  rw [afterElement, ws_cons_eq h (by decide)]
  rfl

theorem afterMember_close {text rest : List UInt8} (h : Ws text (0x7D :: rest)) (fuel : Nat)
    (seen : List (List Char)) : afterMember fuel seen text = .ok rest := by
  rw [afterMember, ws_cons_eq h (by decide)]
  rfl

theorem afterMember_comma {text rest : List UInt8} (h : Ws text (0x2C :: rest)) (fuel : Nat)
    (seen : List (List Char)) : afterMember fuel seen text = members fuel seen rest := by
  rw [afterMember, ws_cons_eq h (by decide)]
  rfl

theorem afterKey_eq {text rest : List UInt8} (h : Ws text (0x3A :: rest)) (fuel : Nat)
    {seen : List (List Char)} {key : List Char} (hkey : key ∉ seen) :
    afterKey fuel seen key text = (value fuel rest).bind (afterMember fuel (key :: seen)) := by
  rw [afterKey, if_neg hkey, ws_cons_eq h (by decide)]
  rfl

theorem afterKey_duplicate {seen : List (List Char)} {key : List Char} (hkey : key ∈ seen)
    (fuel : Nat) (text : List UInt8) :
    afterKey fuel seen key text = .error (duplicateKey key) := by
  rw [afterKey, if_pos hkey]

/-- A member, up to its value. -/
theorem members_key {text text₁ text₂ text₃ text₄ : List UInt8} {key : List Char}
    (hv : Utf8.Valid text) (hw : Ws text (0x22 :: text₁)) (hk : Chars loose text₁ key text₂)
    (hc : Ws text₂ (0x3A :: text₃)) (hw' : Ws text₃ text₄) (fuel : Nat) {seen : List (List Char)}
    (hkey : key ∉ seen) :
    members (fuel + 1) seen text = (value fuel text₄).bind (afterMember fuel (key :: seen)) := by
  have hv₁ := valid_of_ws_cons hw hv (by decide)
  rw [members_quote (ws_cons_eq hw (by decide)), (string_of_chars hv₁ hk (Nat.lt_succ_self _)).1]
  change afterKey fuel seen key text₂ = _
  rw [afterKey_eq hc fuel hkey, value_ws hw']

theorem members_duplicate {text text₁ text₂ : List UInt8} {key : List Char}
    (hv : Utf8.Valid text) (hw : Ws text (0x22 :: text₁)) (hk : Chars loose text₁ key text₂)
    (fuel : Nat) {seen : List (List Char)} (hkey : key ∈ seen) :
    members (fuel + 1) seen text = .error (duplicateKey key) := by
  have hv₁ := valid_of_ws_cons hw hv (by decide)
  rw [members_quote (ws_cons_eq hw (by decide)), (string_of_chars hv₁ hk (Nat.lt_succ_self _)).1]
  exact afterKey_duplicate hkey fuel text₂

theorem ws_self {byte : UInt8} (h : Json.isWs byte = false) (rest : List UInt8) :
    ws (byte :: rest) = byte :: rest :=
  ws_cons_eq (Json.ws_refl _) h

/-- In front of a closing bracket a value is nothing at all. -/
theorem value_at_bracket {text rest tail : List UInt8} {raw : Raw} {part : Part}
    (h : Reads loose part text raw rest) (hpart : part = .value) (hclose : ws text = 0x5D :: tail) :
    rest = 0x5D :: tail ∧ raw.distinct = true := by
  cases h with
  | @scalar lexeme rest h =>
    obtain ⟨byte, tail', heq, -, hws⟩ := scalar_head h
    rw [heq, ws_self hws] at hclose
    rcases h with h | h
    · exfalso
      rw [hclose] at heq
      simp only [Json.literals, List.mem_cons, List.not_mem_nil, or_false] at h
      rcases h with rfl | rfl | rfl <;> cases heq
    · cases lexeme with
      | nil => exact ⟨heq.trans hclose, rfl⟩
      | cons first lexeme =>
        exfalso
        rw [hclose] at heq
        have hplain := h.plain first List.mem_cons_self
        rw [(List.cons.inj heq).1] at hplain
        cases hplain
  | string h =>
    rw [ws_self (by decide)] at hclose
    cases hclose
  | emptyArray h =>
    rw [ws_self (by decide)] at hclose
    cases hclose
  | array h =>
    rw [ws_self (by decide)] at hclose
    cases hclose
  | emptyObject h =>
    rw [ws_self (by decide)] at hclose
    cases hclose
  | object h =>
    rw [ws_self (by decide)] at hclose
    cases hclose
  | lastElement => cases hpart
  | element => cases hpart
  | lastMember => cases hpart
  | member => cases hpart

/-- A text of the dialect whose elements start at a closing bracket has nothing in them. -/
theorem elements_at_bracket {text rest tail : List UInt8} {raw : Raw}
    (h : Reads loose .elements text raw rest) (hclose : ws text = 0x5D :: tail) :
    rest = tail ∧ raw.distinct = true := by
  cases h with
  | lastElement hw hr he =>
    rw [ws_of_ws hw] at hclose
    obtain ⟨rfl, hdistinct⟩ := value_at_bracket hr rfl hclose
    have heq := ws_cons_eq he (by decide)
    rw [ws_self (by decide)] at heq
    refine ⟨(List.cons.inj heq).2.symm, ?_⟩
    rw [distinct_element, hdistinct]
    rfl
  | element hw hr he _ =>
    rw [ws_of_ws hw] at hclose
    obtain ⟨rfl, -⟩ := value_at_bracket hr rfl hclose
    have heq := ws_cons_eq he (by decide)
    rw [ws_self (by decide)] at heq
    cases heq

theorem members_head {text rest : List UInt8} {raw : Raw}
    (h : Reads loose .members text raw rest) : ∃ tail, ws text = 0x22 :: tail := by
  cases h with
  | lastMember hw => exact ⟨_, ws_cons_eq hw (by decide)⟩
  | member hw => exact ⟨_, ws_cons_eq hw (by decide)⟩

theorem fresh_nil (raw : Raw) : fresh [] raw = true := by
  cases raw <;> simp [fresh]

theorem fuel_succ {n fuel : Nat} (h : n + 1 ≤ fuel) : ∃ fuel', fuel = fuel' + 1 ∧ n ≤ fuel' :=
  ⟨fuel - 1, by omega, by omega⟩

/-- A scan of a text of the dialect reads it, or names a key that is there twice. -/
theorem reads_run {text rest : List UInt8} {raw : Raw} {part : Part}
    (h : Reads loose part text raw rest) (hv : Utf8.Valid text) : Runs part text rest raw := by
  induction h with
  | @scalar lexeme rest h =>
    intro fuel hfuel
    obtain ⟨fuel, rfl, hfuel⟩ := fuel_succ hfuel
    obtain ⟨byte, tail, heq, hbyte, hws⟩ := scalar_head h
    have hself : ws (lexeme ++ rest) = byte :: tail := by
      rw [heq]
      exact ws_self hws _
    change _ = _
    rw [value_scalar (heq ▸ hv) hself hbyte, ← heq, scalarRest_eq h]
  | @string text rest cs h =>
    intro fuel hfuel
    obtain ⟨fuel, rfl, hfuel⟩ := fuel_succ hfuel
    have hself : ws (0x22 :: text) = 0x22 :: text := ws_self (by decide) _
    change _ = _
    rw [value_string hself, (string_of_chars (valid_tail hv (by decide)) h (Nat.lt_succ_self _)).1]
    rfl
  | @emptyArray text rest h =>
    intro fuel hfuel
    obtain ⟨fuel, rfl, hfuel⟩ := fuel_succ hfuel
    have hself : ws (0x5B :: text) = 0x5B :: text := ws_self (by decide) _
    exact value_empty_array hself (ws_cons_eq h (by decide)) fuel
  | @array text rest raw h ih =>
    intro fuel hfuel
    obtain ⟨fuel, rfl, hfuel⟩ := fuel_succ hfuel
    have hself : ws (0x5B :: text) = 0x5B :: text := ws_self (by decide) _
    by_cases hclose : ∃ tail, ws text = 0x5D :: tail
    · obtain ⟨tail, hclose⟩ := hclose
      obtain ⟨rfl, hdistinct⟩ := elements_at_bracket h hclose
      rw [hdistinct]
      exact value_empty_array hself hclose fuel
    · rw [value_array hself fun tail htail => hclose ⟨tail, htail⟩]
      simp only [List.length_cons] at hfuel
      exact ih (valid_tail hv (by decide)) fuel (by omega)
  | @emptyObject text rest h =>
    intro fuel hfuel
    obtain ⟨fuel, rfl, hfuel⟩ := fuel_succ hfuel
    have hself : ws (0x7B :: text) = 0x7B :: text := ws_self (by decide) _
    exact value_empty_object hself (ws_cons_eq h (by decide)) fuel
  | @object text rest raw h ih =>
    intro fuel hfuel
    obtain ⟨fuel, rfl, hfuel⟩ := fuel_succ hfuel
    have hself : ws (0x7B :: text) = 0x7B :: text := ws_self (by decide) _
    obtain ⟨tail, htail⟩ := members_head h
    have hopen : ∀ rest, ws text ≠ 0x7D :: rest := by
      intro rest hclose
      rw [htail] at hclose
      cases hclose
    rw [value_object hself hopen]
    simp only [List.length_cons] at hfuel
    have hmembers := ih (valid_tail hv (by decide)) [] fuel (by omega)
    rwa [fresh_nil, Bool.and_true] at hmembers
  | @lastElement text text₁ text₂ rest raw hw hr he ih =>
    intro fuel hfuel
    obtain ⟨fuel, rfl, hfuel⟩ := fuel_succ hfuel
    have hle := length_of_ws hw
    have hvalue := ih (valid_of_ws hw hv) fuel (by omega)
    have hlast : Outcome true rest (afterElement fuel text₂) := afterElement_close he fuel
    rw [elements_succ, value_ws hw]
    exact hvalue.bind hlast
  | @element text text₁ text₂ text₃ rest raw raws hw hr he hmore ih ih' =>
    intro fuel hfuel
    obtain ⟨fuel, rfl, hfuel⟩ := fuel_succ hfuel
    have hle := length_of_ws hw
    have hle' := length_of_ws he
    have hread := reads_length hr
    simp only [List.length_cons, if_true] at hle' hread
    have hv₁ := valid_of_ws hw hv
    have hvalue := ih hv₁ fuel (by omega)
    have hnext := ih' (valid_of_ws_cons he (reads_valid hr hv₁) (by decide)) fuel (by omega)
    rw [← afterElement_comma he] at hnext
    rw [elements_succ, value_ws hw, distinct_element]
    exact hvalue.bind hnext
  | @lastMember text text₁ text₂ text₃ text₄ text₅ rest key raw hw hk hc hw' hr he ih =>
    intro seen fuel hfuel
    obtain ⟨fuel, rfl, hfuel⟩ := fuel_succ hfuel
    have hle := length_of_ws hw
    have hlek := length_of_chars hk
    have hlec := length_of_ws hc
    have hle' := length_of_ws hw'
    simp only [List.length_cons] at hle hlec
    have hv₂ := valid_of_chars (valid_of_ws_cons hw hv (by decide)) hk
    have hv₄ := valid_of_ws hw' (valid_of_ws_cons hc hv₂ (by decide))
    rw [good_member]
    by_cases hkey : key ∈ seen
    · rw [decide_eq_false (not_not.mpr hkey), members_duplicate hv hw hk fuel hkey]
      exact ⟨key, rfl⟩
    · rw [decide_eq_true hkey, members_key hv hw hk hc hw' fuel hkey]
      have hvalue := ih hv₄ fuel (by omega)
      have hlast : Outcome true rest (afterMember fuel (key :: seen) text₅) :=
        afterMember_close he fuel _
      exact hvalue.bind hlast
  | @member text text₁ text₂ text₃ text₄ text₅ text₆ rest key raw items hw hk hc hw' hr he hmore ih ih' =>
    intro seen fuel hfuel
    obtain ⟨fuel, rfl, hfuel⟩ := fuel_succ hfuel
    have hle := length_of_ws hw
    have hlek := length_of_chars hk
    have hlec := length_of_ws hc
    have hle' := length_of_ws hw'
    have hread := reads_length hr
    have hlee := length_of_ws he
    simp only [List.length_cons, if_true] at hle hlec hread hlee
    have hv₂ := valid_of_chars (valid_of_ws_cons hw hv (by decide)) hk
    have hv₄ := valid_of_ws hw' (valid_of_ws_cons hc hv₂ (by decide))
    rw [good_member]
    by_cases hkey : key ∈ seen
    · rw [decide_eq_false (not_not.mpr hkey), members_duplicate hv hw hk fuel hkey]
      exact ⟨key, rfl⟩
    · rw [decide_eq_true hkey, members_key hv hw hk hc hw' fuel hkey]
      have hvalue := ih hv₄ fuel (by omega)
      have hv₆ := valid_of_ws_cons he (reads_valid hr hv₄) (by decide)
      have hnext := ih' hv₆ (key :: seen) fuel (by omega)
      rw [← afterMember_comma he] at hnext
      exact hvalue.bind hnext

end SupraHarness.Llm.Scanner
