import SupraHarness.Llm.Strict

/-!
# Torn texts

The scan of a text of any kind ends in one of three ways: the text starts with a value of the loose
dialect whose keys are distinct, or it comes to a torn escape behind such values, or it is refused.
The second is the one way to a panic, and no scan runs out of turns.
-/
namespace SupraHarness.Llm.Scanner

open Results (bind_eq_ok bind_eq_error)
open Json (Ch Chars Ws Reads Raw Part length_of_ws length_of_chars reads_length)

/-- A part that comes to a torn escape, in front of which no key is repeated. -/
inductive Tears : Part → List (List Char) → List UInt8 → Prop
  | string {text : List UInt8} (h : TornChars text) : Tears .value [] (0x22 :: text)
  | array {text : List UInt8} (h : Tears .elements [] text) : Tears .value [] (0x5B :: text)
  | object {text : List UInt8} (h : Tears .members [] text) : Tears .value [] (0x7B :: text)
  | element {text text₁ : List UInt8} (hw : Ws text text₁) (h : Tears .value [] text₁) :
      Tears .elements [] text
  | laterElement {text text₁ text₂ text₃ : List UInt8} {raw : Raw} (hw : Ws text text₁)
      (hv : Reads loose .value text₁ raw text₂) (hd : raw.distinct = true)
      (he : Ws text₂ (0x2C :: text₃)) (h : Tears .elements [] text₃) : Tears .elements [] text
  | key {seen : List (List Char)} {text text₁ : List UInt8} (hw : Ws text (0x22 :: text₁))
      (h : TornChars text₁) : Tears .members seen text
  | member {seen : List (List Char)} {text text₁ text₂ text₃ text₄ : List UInt8} {key : List Char}
      (hw : Ws text (0x22 :: text₁)) (hk : Chars loose text₁ key text₂) (hkey : key ∉ seen)
      (hc : Ws text₂ (0x3A :: text₃)) (hw' : Ws text₃ text₄) (h : Tears .value [] text₄) :
      Tears .members seen text
  | laterMember {seen : List (List Char)} {text text₁ text₂ text₃ text₄ text₅ text₆ : List UInt8}
      {key : List Char} {raw : Raw} (hw : Ws text (0x22 :: text₁))
      (hk : Chars loose text₁ key text₂) (hkey : key ∉ seen) (hc : Ws text₂ (0x3A :: text₃))
      (hw' : Ws text₃ text₄) (hv : Reads loose .value text₄ raw text₅) (hd : raw.distinct = true)
      (he : Ws text₅ (0x2C :: text₆)) (h : Tears .members (key :: seen) text₆) :
      Tears .members seen text

/-- How a scan of any text ends. -/
def Ends (good : List UInt8 → Prop) (torn : Prop) (result : Except Stop (List UInt8)) : Prop :=
  (∃ rest, good rest ∧ result = .ok rest) ∨ (torn ∧ result = .error .panic) ∨
    ∃ e, result = .error (.err e)

theorem Ends.ok {good : List UInt8 → Prop} {torn : Prop} {rest : List UInt8} (h : good rest) :
    Ends good torn (.ok rest) :=
  .inl ⟨rest, h, rfl⟩

theorem Ends.refused (good : List UInt8 → Prop) (torn : Prop) (e : CanonicalError) :
    Ends good torn (.error (.err e)) :=
  .inr (.inr ⟨e, rfl⟩)

theorem Ends.bind {α : Type} {good : α → Prop} {good' : List UInt8 → Prop} {torn torn' : Prop}
    {x : Except Stop α} {f : α → Except Stop (List UInt8)}
    (h : (∃ a, good a ∧ x = .ok a) ∨ (torn ∧ x = .error .panic) ∨ ∃ e, x = .error (.err e))
    (ht : torn → torn') (hf : ∀ a, good a → Ends good' torn' (f a)) : Ends good' torn' (x.bind f) := by
  rcases h with ⟨a, ha, rfl⟩ | ⟨htorn, rfl⟩ | ⟨e, rfl⟩
  · exact hf a ha
  · exact .inr (.inl ⟨ht htorn, rfl⟩)
  · exact .inr (.inr ⟨e, rfl⟩)

theorem Ends.mono {good good' : List UInt8 → Prop} {torn torn' : Prop}
    {result : Except Stop (List UInt8)} (h : Ends good torn result)
    (hg : ∀ rest, good rest → good' rest) (ht : torn → torn') : Ends good' torn' result := by
  rcases h with ⟨rest, hrest, rfl⟩ | ⟨htorn, rfl⟩ | ⟨e, rfl⟩
  · exact .inl ⟨rest, hg rest hrest, rfl⟩
  · exact .inr (.inl ⟨ht htorn, rfl⟩)
  · exact .inr (.inr ⟨e, rfl⟩)

/-! ## A torn text panics -/

/-- What a scan makes of each torn part. -/
def Panics (part : Part) (seen : List (List Char)) (text : List UInt8) : Prop :=
  match part with
  | .value => ∀ fuel, 2 * text.length + 1 ≤ fuel → value fuel text = .error .panic
  | .elements => ∀ fuel, 2 * text.length + 2 ≤ fuel → elements fuel text = .error .panic
  | .members => ∀ fuel, 2 * text.length + 2 ≤ fuel → members fuel seen text = .error .panic

theorem tears_head {part : Part} {seen : List (List Char)} {text : List UInt8}
    (h : Tears part seen text) (hpart : part = .value) :
    ∃ byte tail, text = byte :: tail ∧ byte ∈ [0x7B, 0x5B, 0x22] := by
  cases h with
  | string => exact ⟨_, _, rfl, by decide⟩
  | array => exact ⟨_, _, rfl, by decide⟩
  | object => exact ⟨_, _, rfl, by decide⟩
  | element => cases hpart
  | laterElement => cases hpart
  | key => cases hpart
  | member => cases hpart
  | laterMember => cases hpart

theorem opening_not_ws {byte : UInt8} (h : byte ∈ [0x7B, 0x5B, 0x22]) :
    Json.isWs byte = false ∧ byte ≠ 0x5D := by
  simp only [List.mem_cons, List.not_mem_nil, or_false] at h
  rcases h with rfl | rfl | rfl <;> decide

theorem tears_elements_open {text : List UInt8} (h : Tears .elements [] text) (tail : List UInt8) :
    ws text ≠ 0x5D :: tail := by
  intro hclose
  cases h with
  | element hw ht =>
    obtain ⟨byte, tail', rfl, hbyte⟩ := tears_head ht rfl
    obtain ⟨hws, hne⟩ := opening_not_ws hbyte
    rw [ws_cons_eq hw hws] at hclose
    exact hne (List.cons.inj hclose).1
  | laterElement hw hv _ he =>
    rw [ws_of_ws hw] at hclose
    obtain ⟨rfl, -⟩ := value_at_bracket hv rfl hclose
    have heq := ws_cons_eq he (by decide)
    rw [ws_self (by decide)] at heq
    cases heq

theorem tears_members_head {seen : List (List Char)} {text : List UInt8}
    (h : Tears .members seen text) : ∃ tail, ws text = 0x22 :: tail := by
  cases h with
  | key hw => exact ⟨_, ws_cons_eq hw (by decide)⟩
  | member hw => exact ⟨_, ws_cons_eq hw (by decide)⟩
  | laterMember hw => exact ⟨_, ws_cons_eq hw (by decide)⟩

/-- Where an earlier value was read, it was read with its keys distinct. -/
theorem value_of_reads {text rest : List UInt8} {raw : Raw} (h : Reads loose .value text raw rest)
    (hv : Utf8.Valid text) (hd : raw.distinct = true) {fuel : Nat}
    (hfuel : 2 * text.length + 1 ≤ fuel) : value fuel text = .ok rest := by
  have houtcome : Outcome raw.distinct rest (value fuel text) := reads_run h hv fuel hfuel
  rwa [hd] at houtcome

theorem tears_run {part : Part} {seen : List (List Char)} {text : List UInt8}
    (h : Tears part seen text) (hv : Utf8.Valid text) : Panics part seen text := by
  induction h with
  | @string text h =>
    intro fuel hfuel
    obtain ⟨fuel, rfl, hfuel⟩ := fuel_succ hfuel
    have hself : ws (0x22 :: text) = 0x22 :: text := ws_self (by decide) _
    rw [value_string hself, string_of_torn (valid_tail hv (by decide)) h (Nat.lt_succ_self _)]
    rfl
  | @array text h ih =>
    intro fuel hfuel
    obtain ⟨fuel, rfl, hfuel⟩ := fuel_succ hfuel
    have hself : ws (0x5B :: text) = 0x5B :: text := ws_self (by decide) _
    rw [value_array hself (tears_elements_open h)]
    simp only [List.length_cons] at hfuel
    exact ih (valid_tail hv (by decide)) fuel (by omega)
  | @object text h ih =>
    intro fuel hfuel
    obtain ⟨fuel, rfl, hfuel⟩ := fuel_succ hfuel
    have hself : ws (0x7B :: text) = 0x7B :: text := ws_self (by decide) _
    obtain ⟨tail, htail⟩ := tears_members_head h
    have hopen : ∀ rest, ws text ≠ 0x7D :: rest := by
      intro rest hclose
      rw [htail] at hclose
      cases hclose
    rw [value_object hself hopen]
    simp only [List.length_cons] at hfuel
    exact ih (valid_tail hv (by decide)) fuel (by omega)
  | @element text text₁ hw h ih =>
    intro fuel hfuel
    obtain ⟨fuel, rfl, hfuel⟩ := fuel_succ hfuel
    have hle := length_of_ws hw
    rw [elements_succ, value_ws hw, ih (valid_of_ws hw hv) fuel (by omega)]
    rfl
  | @laterElement text text₁ text₂ text₃ raw hw hr hd he h ih =>
    intro fuel hfuel
    obtain ⟨fuel, rfl, hfuel⟩ := fuel_succ hfuel
    have hle := length_of_ws hw
    have hle' := length_of_ws he
    have hread := reads_length hr
    simp only [List.length_cons, if_true] at hle' hread
    have hv₁ := valid_of_ws hw hv
    have hv₃ := valid_of_ws_cons he (reads_valid hr hv₁) (by decide)
    rw [elements_succ, value_ws hw, value_of_reads hr hv₁ hd (by omega)]
    change afterElement fuel text₂ = _
    rw [afterElement_comma he]
    exact ih hv₃ fuel (by omega)
  | @key seen text text₁ hw h =>
    intro fuel hfuel
    obtain ⟨fuel, rfl, hfuel⟩ := fuel_succ hfuel
    have hv₁ := valid_of_ws_cons hw hv (by decide)
    rw [members_quote (ws_cons_eq hw (by decide)), string_of_torn hv₁ h (Nat.lt_succ_self _)]
    rfl
  | @member seen text text₁ text₂ text₃ text₄ key hw hk hkey hc hw' h ih =>
    intro fuel hfuel
    obtain ⟨fuel, rfl, hfuel⟩ := fuel_succ hfuel
    have hle := length_of_ws hw
    have hlek := length_of_chars hk
    have hlec := length_of_ws hc
    have hle' := length_of_ws hw'
    simp only [List.length_cons] at hle hlec
    have hv₂ := valid_of_chars (valid_of_ws_cons hw hv (by decide)) hk
    have hv₄ := valid_of_ws hw' (valid_of_ws_cons hc hv₂ (by decide))
    rw [members_key hv hw hk hc hw' fuel hkey, ih hv₄ fuel (by omega)]
    rfl
  | @laterMember seen text text₁ text₂ text₃ text₄ text₅ text₆ key raw hw hk hkey hc hw' hr hd he h ih =>
    intro fuel hfuel
    obtain ⟨fuel, rfl, hfuel⟩ := fuel_succ hfuel
    have hle := length_of_ws hw
    have hlek := length_of_chars hk
    have hlec := length_of_ws hc
    have hle' := length_of_ws hw'
    have hread := reads_length hr
    have hlee := length_of_ws he
    simp only [List.length_cons, if_true] at hle hlec hread hlee
    have hv₂ := valid_of_chars (valid_of_ws_cons hw hv (by decide)) hk
    have hv₄ := valid_of_ws hw' (valid_of_ws_cons hc hv₂ (by decide))
    have hv₆ := valid_of_ws_cons he (reads_valid hr hv₄) (by decide)
    rw [members_key hv hw hk hc hw' fuel hkey, value_of_reads hr hv₄ hd (by omega)]
    change afterMember fuel (key :: seen) text₅ = _
    rw [afterMember_comma he]
    exact ih hv₆ fuel (by omega)

/-! ## The three ways a scan ends -/

theorem afterElement_refused {text : List UInt8} (hclose : ¬ ∃ tail, ws text = 0x5D :: tail)
    (hcomma : ¬ ∃ tail, ws text = 0x2C :: tail) (fuel : Nat) :
    ∃ e, afterElement fuel text = .error (.err e) := by
  rw [afterElement]
  split
  · exact ⟨_, rfl⟩
  · next next rest h =>
    rw [if_neg, if_pos]
    · exact ⟨_, rfl⟩
    · rintro rfl
      exact hcomma ⟨rest, h⟩
    · rintro rfl
      exact hclose ⟨rest, h⟩

theorem afterMember_refused {text : List UInt8} (hclose : ¬ ∃ tail, ws text = 0x7D :: tail)
    (hcomma : ¬ ∃ tail, ws text = 0x2C :: tail) (fuel : Nat) (seen : List (List Char)) :
    ∃ e, afterMember fuel seen text = .error (.err e) := by
  rw [afterMember]
  split
  · exact ⟨_, rfl⟩
  · next next rest h =>
    rw [if_neg, if_pos]
    · exact ⟨_, rfl⟩
    · rintro rfl
      exact hcomma ⟨rest, h⟩
    · rintro rfl
      exact hclose ⟨rest, h⟩

theorem string_ends {text : List UInt8} (hv : Utf8.Valid text) :
    (∃ r : List Char × List UInt8, Chars loose text r.1 r.2 ∧
      string (text.length + 1) text = .ok r) ∨
    (TornChars text ∧ string (text.length + 1) text = .error .panic) ∨
    ∃ e, string (text.length + 1) text = .error (.err e) := by
  rcases string_cases hv (Nat.lt_succ_self text.length) with ⟨cs, rest, hcs, heq⟩ | h
  · exact .inl ⟨(cs, rest), hcs, heq⟩
  · exact .inr h

/-- A value of the dialect whose keys are distinct. -/
def ReadsValue (text rest : List UInt8) : Prop :=
  ∃ raw, Reads loose .value text raw rest ∧ raw.distinct = true

def ReadsElements (text rest : List UInt8) : Prop :=
  ∃ raws, Reads loose .elements text (.array raws) rest ∧ (Raw.array raws).distinct = true

def ReadsMembers (seen : List (List Char)) (text rest : List UInt8) : Prop :=
  ∃ items, Reads loose .members text (.object items) rest ∧
    ((Raw.object items).distinct && fresh seen (.object items)) = true

def ValueEnds (fuel : Nat) : Prop :=
  ∀ text, Utf8.Valid text → 2 * text.length + 1 ≤ fuel →
    Ends (ReadsValue (ws text)) (Tears .value [] (ws text)) (value fuel text)

def ElementsEnd (fuel : Nat) : Prop :=
  ∀ text, Utf8.Valid text → 2 * text.length + 2 ≤ fuel →
    Ends (ReadsElements text) (Tears .elements [] text) (elements fuel text)

def MembersEnd (fuel : Nat) : Prop :=
  ∀ seen text, Utf8.Valid text → 2 * text.length + 2 ≤ fuel →
    Ends (ReadsMembers seen text) (Tears .members seen text) (members fuel seen text)

theorem value_ends {fuel : Nat} (he : ElementsEnd fuel) (hm : MembersEnd fuel) :
    ValueEnds (fuel + 1) := by
  intro text hv hfuel
  have hw := ws_spec text
  have hhead := ws_head text
  have hle := length_of_ws hw
  have hvw := valid_of_ws hw hv
  cases hshape : ws text with
  | nil =>
    rw [value, hshape]
    exact Ends.refused _ _ _
  | cons byte tail =>
    rw [hshape] at hle hvw hhead
    rw [List.length_cons] at hle
    by_cases hobject : byte = 0x7B
    · subst hobject
      have hvt := valid_tail hvw (by decide)
      by_cases hclose : ∃ rest, ws tail = 0x7D :: rest
      · obtain ⟨rest, hclose⟩ := hclose
        rw [value_empty_object hshape hclose]
        exact Ends.ok ⟨_, .emptyObject (hclose ▸ ws_spec tail), rfl⟩
      · rw [value_object hshape fun rest hrest => hclose ⟨rest, hrest⟩]
        refine (hm [] tail hvt (by omega)).mono ?_ .object
        rintro rest ⟨items, hread, hgood⟩
        rw [fresh_nil, Bool.and_true] at hgood
        exact ⟨_, .object hread, hgood⟩
    · by_cases harray : byte = 0x5B
      · subst harray
        have hvt := valid_tail hvw (by decide)
        by_cases hclose : ∃ rest, ws tail = 0x5D :: rest
        · obtain ⟨rest, hclose⟩ := hclose
          rw [value_empty_array hshape hclose]
          exact Ends.ok ⟨_, .emptyArray (hclose ▸ ws_spec tail), rfl⟩
        · rw [value_array hshape fun rest hrest => hclose ⟨rest, hrest⟩]
          refine (he tail hvt (by omega)).mono ?_ .array
          rintro rest ⟨raws, hread, hgood⟩
          exact ⟨_, .array hread, hgood⟩
      · by_cases hstring : byte = 0x22
        · subst hstring
          have hvt := valid_tail hvw (by decide)
          rw [value_string hshape]
          refine Ends.bind (string_ends hvt) .string ?_
          intro r hr
          exact Ends.ok ⟨_, .string hr, rfl⟩
        · have hbyte : byte ∉ [0x7B, 0x5B, 0x22] := by simp [hobject, harray, hstring]
          rw [value_scalar hvw hshape hbyte]
          obtain ⟨lexeme, heq, hscalar⟩ := scalarRest_spec (List.cons_ne_nil byte tail) (by
            intro b hb
            obtain rfl : byte = b := Option.some.inj hb
            exact ⟨hbyte, hhead byte rfl⟩)
          have hread := Reads.scalar (D := loose) hscalar
          rw [← heq] at hread
          exact Ends.ok ⟨.scalar lexeme, hread, rfl⟩

theorem elements_end {fuel : Nat} (hval : ValueEnds fuel) (he : ElementsEnd fuel) :
    ElementsEnd (fuel + 1) := by
  intro text hv hfuel
  have hw := ws_spec text
  have hvw := valid_of_ws hw hv
  have hle := length_of_ws hw
  rw [elements_succ]
  refine Ends.bind (hval text hv (by omega)) (.element hw) ?_
  rintro rest ⟨raw, hread, hdistinct⟩
  have hread' := reads_length hread
  simp only [if_true] at hread'
  have hrest := ws_spec rest
  have hvr := reads_valid hread hvw
  by_cases hclose : ∃ tail, ws rest = 0x5D :: tail
  · obtain ⟨tail, hclose⟩ := hclose
    rw [hclose] at hrest
    rw [afterElement_close hrest]
    refine Ends.ok ⟨[raw], .lastElement hw hread hrest, ?_⟩
    rw [distinct_element, hdistinct]
    rfl
  · by_cases hcomma : ∃ tail, ws rest = 0x2C :: tail
    · obtain ⟨tail, hcomma⟩ := hcomma
      rw [hcomma] at hrest
      have hler := length_of_ws hrest
      rw [List.length_cons] at hler
      rw [afterElement_comma hrest]
      refine (he tail (valid_of_ws_cons hrest hvr (by decide)) (by omega)).mono ?_
        (.laterElement hw hread hdistinct hrest)
      rintro rest' ⟨raws, hmore, hgood⟩
      refine ⟨raw :: raws, .element hw hread hrest hmore, ?_⟩
      rw [distinct_element, hdistinct, hgood]
      rfl
    · obtain ⟨e, herr⟩ := afterElement_refused hclose hcomma fuel
      rw [herr]
      exact Ends.refused _ _ e

theorem members_end {fuel : Nat} (hval : ValueEnds fuel) (hm : MembersEnd fuel) :
    MembersEnd (fuel + 1) := by
  intro seen text hv hfuel
  have hw := ws_spec text
  have hle := length_of_ws hw
  have hvw := valid_of_ws hw hv
  by_cases hquote : ∃ tail, ws text = 0x22 :: tail
  · obtain ⟨tail, hshape⟩ := hquote
    rw [hshape] at hw hvw hle
    rw [List.length_cons] at hle
    have hvt := valid_tail hvw (by decide)
    rw [members_quote hshape]
    refine Ends.bind (string_ends hvt) (.key hw) ?_
    rintro ⟨key, text₂⟩ hk
    have hlek := length_of_chars hk
    have hv₂ := valid_of_chars hvt hk
    have hc := ws_spec text₂
    have hlec := length_of_ws hc
    have hvc := valid_of_ws hc hv₂
    change text₂.length < tail.length at hlek
    change Ends _ _ (afterKey fuel seen key text₂)
    rw [afterKey]
    by_cases hkey : key ∈ seen
    · rw [if_pos hkey]
      exact Ends.refused _ _ _
    · rw [if_neg hkey]
      split
      · next text₃ hcolon =>
        rw [hcolon] at hc hlec hvc
        rw [List.length_cons] at hlec
        have hv₃ := valid_tail hvc (by decide)
        have hw' := ws_spec text₃
        have hv₄ := valid_of_ws hw' hv₃
        have hle' := length_of_ws hw'
        refine Ends.bind (hval text₃ hv₃ (by omega)) (.member hw hk hkey hc hw') ?_
        rintro rest ⟨raw, hread, hdistinct⟩
        have hread' := reads_length hread
        simp only [if_true] at hread'
        have hrest := ws_spec rest
        have hvr := reads_valid hread hv₄
        by_cases hclose : ∃ tail, ws rest = 0x7D :: tail
        · obtain ⟨tail, hclose⟩ := hclose
          rw [hclose] at hrest
          rw [afterMember_close hrest]
          refine Ends.ok ⟨[(key, raw)], .lastMember hw hk hc hw' hread hrest, ?_⟩
          rw [good_member, decide_eq_true hkey, hdistinct]
          rfl
        · by_cases hcomma : ∃ tail, ws rest = 0x2C :: tail
          · obtain ⟨tail, hcomma⟩ := hcomma
            rw [hcomma] at hrest
            have hler := length_of_ws hrest
            rw [List.length_cons] at hler
            have hvt' := valid_of_ws_cons hrest hvr (by decide)
            rw [afterMember_comma hrest]
            refine (hm (key :: seen) tail hvt' (by omega)).mono ?_
              (.laterMember hw hk hkey hc hw' hread hdistinct hrest)
            rintro rest' ⟨items, hmore, hgood⟩
            refine ⟨(key, raw) :: items, .member hw hk hc hw' hread hrest hmore, ?_⟩
            rw [good_member, decide_eq_true hkey, hdistinct, hgood]
            rfl
          · obtain ⟨e, herr⟩ := afterMember_refused hclose hcomma fuel (key :: seen)
            rw [herr]
            exact Ends.refused _ _ e
      · exact Ends.refused _ _ _
  · rw [members]
    split
    · next tail hshape => exact absurd ⟨tail, hshape⟩ hquote
    · exact Ends.refused _ _ _

theorem scans_end (fuel : Nat) : ValueEnds fuel ∧ ElementsEnd fuel ∧ MembersEnd fuel := by
  induction fuel with
  | zero =>
    refine ⟨?_, ?_, ?_⟩
    · intro text _ hfuel
      omega
    · intro text _ hfuel
      omega
    · intro seen text _ hfuel
      omega
  | succ fuel ih =>
    obtain ⟨hval, he, hm⟩ := ih
    exact ⟨value_ends he hm, elements_end hval he, members_end hval hm⟩

end SupraHarness.Llm.Scanner
