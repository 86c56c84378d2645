import SupraHarness.Lib.Results
import SupraHarness.Llm.Scanner
import Mathlib.Data.List.Nodup

/-!
# The language of the scanner

The scanner reads a looser dialect of the grammar: any character stands for itself, a plus sign
may stand before the digits of an escape, and whatever is no literal is skipped up to the next
structural character. It accepts the texts of this dialect without a repeated key, and it panics on
those that come to an escape whose four bytes end inside a character.
-/
namespace SupraHarness.Llm.Scanner

open Results (bind_eq_ok bind_eq_error)
open Json (Ch Chars Ws Reads Raw length_of_ch length_of_chars)

/-- What is skipped: bytes up to a structural one or the end. -/
structure Skipped (lexeme rest : List UInt8) : Prop where
  plain : ∀ byte ∈ lexeme, structural byte = false
  ended : ∀ byte ∈ rest.head?, structural byte = true
  nonempty : lexeme ++ rest ≠ []
  head : ∀ byte ∈ (lexeme ++ rest).head?, byte ∉ [0x7B, 0x5B, 0x22] ∧ Json.isWs byte = false
  literal : ∀ literal ∈ Json.literals, ¬ literal <+: lexeme ++ rest

def loose : Json.Dialect where
  plain _ := true
  hex := fromStrRadix
  scalar lexeme rest := lexeme ∈ Json.literals ∨ Skipped lexeme rest

/-! ## Strings -/

theorem continuation_of_lt {byte : UInt8} (h : byte < 0x80) : Utf8.continuation byte = false := by
  simp only [Utf8.continuation, Bool.and_eq_false_iff, decide_eq_false_iff_not]
  left
  intro hle
  exact absurd (UInt8.lt_of_lt_of_le h hle) (UInt8.lt_irrefl byte)

theorem boundary_iff (rest : List UInt8) : isCharBoundary rest = true ↔ Utf8.startsWhole rest := by
  cases rest <;> simp [isCharBoundary, Utf8.startsWhole]

theorem valid_tail {byte : UInt8} {rest : List UInt8} (h : Utf8.Valid (byte :: rest))
    (hlt : byte < 0x80) : Utf8.Valid rest := by
  obtain ⟨cs, hcs⟩ := h
  cases cs with
  | nil => cases hcs
  | cons c cs =>
    rw [Utf8.encode_cons] at hcs
    rcases Nat.lt_or_ge c.toNat 0x80 with hc | hc
    · rw [Utf8.utf8EncodeChar_ascii hc] at hcs
      exact ⟨cs, (List.cons.inj hcs).2⟩
    · obtain ⟨lead, tail, hshape, hlead⟩ := Utf8.utf8EncodeChar_wide hc
      rw [hshape] at hcs
      have heq : lead = byte := (List.cons.inj hcs).1
      rw [heq] at hlead
      exact absurd (UInt8.lt_of_lt_of_le hlt hlead) (UInt8.lt_irrefl byte)

theorem firstChar_encode (c : Char) (rest : List UInt8) :
    firstChar (String.utf8EncodeChar c ++ rest) = some c := by
  rw [firstChar, List.toByteArray_append]
  exact ByteArray.utf8DecodeChar?_utf8EncodeChar_append

theorem valid_after_char {c : Char} {rest : List UInt8}
    (h : Utf8.Valid (String.utf8EncodeChar c ++ rest)) : Utf8.Valid rest := by
  obtain ⟨cs, hcs⟩ := h
  have hfirst := firstChar_encode c rest
  rw [← hcs] at hfirst
  cases cs with
  | nil =>
    rw [Utf8.encode_nil] at hcs
    exact absurd (List.append_eq_nil_iff.mp hcs.symm).1 (Utf8.utf8EncodeChar_ne_nil c)
  | cons c' cs =>
    rw [Utf8.encode_cons, firstChar_encode] at hfirst
    rw [Utf8.encode_cons, Option.some.inj hfirst] at hcs
    exact ⟨cs, List.append_cancel_left hcs⟩

/-- Slicing inside a valid text goes by characters. -/
theorem get_eq_some {rest part : List UInt8} {len : Nat} (h : get rest len = some part) :
    part = rest.take len ∧ len ≤ rest.length ∧ isCharBoundary (rest.drop len) = true := by
  rw [get] at h
  split at h
  · next hc =>
    cases h
    exact ⟨rfl, hc.1, hc.2.2⟩
  · cases h

theorem charOf_eq {code : Nat} (hlt : code < 0x110000) (hhigh : Json.isHigh code = false)
    (hlow : Json.isLow code = false) : charOf code = Char.ofNat code := by
  rw [charOf, if_pos]
  simp only [Json.isHigh, Json.isLow, Bool.and_eq_false_iff, decide_eq_false_iff_not] at hhigh hlow
  simp only [Nat.isValidChar]
  omega

theorem hexDigit_lt {byte : UInt8} {digit : Nat} (h : Json.hexDigit byte = some digit) :
    digit < 16 ∧ byte < 0x80 := by
  simp only [Json.hexDigit, UInt8.le_iff_toNat_le, UInt8.reduceToNat] at h
  simp only [UInt8.lt_iff_toNat_lt, UInt8.reduceToNat]
  split at h
  · cases h
    omega
  · split at h
    · cases h
      omega
    · split at h
      · cases h
        omega
      · cases h

theorem hexFrom_lt {acc code : Nat} {bytes : List UInt8} (h : Json.hexFrom acc bytes = some code) :
    code < (acc + 1) * 16 ^ bytes.length ∧ ∀ byte ∈ bytes, byte < 0x80 := by
  induction bytes generalizing acc with
  | nil =>
    cases h
    simp
  | cons byte bytes ih =>
    rw [Json.hexFrom] at h
    split at h
    · cases h
    · next digit hdigit =>
      obtain ⟨hlt, hascii⟩ := ih h
      have hd := hexDigit_lt hdigit
      refine ⟨?_, List.forall_mem_cons.mpr ⟨hd.2, hascii⟩⟩
      have hle : (acc * 16 + digit + 1) * 16 ^ bytes.length ≤ (acc + 1) * 16 * 16 ^ bytes.length :=
        Nat.mul_le_mul_right _ (by omega)
      rw [List.length_cons, Nat.pow_succ']
      calc code < (acc * 16 + digit + 1) * 16 ^ bytes.length := hlt
        _ ≤ (acc + 1) * 16 * 16 ^ bytes.length := hle
        _ = (acc + 1) * (16 * 16 ^ bytes.length) := Nat.mul_assoc _ _ _

/-- The four bytes of an escape that is read are ASCII. -/
theorem fromStrRadix_lt {hex : List UInt8} {code : Nat} (hlen : hex.length = 4)
    (h : fromStrRadix hex = some code) : code < 0x10000 ∧ ∀ byte ∈ hex, byte < 0x80 := by
  cases hex with
  | nil => cases hlen
  | cons byte bytes =>
    rw [fromStrRadix] at h
    by_cases hplus : byte = 0x2B
    · rw [if_pos hplus] at h
      split at h
      · cases h
      · obtain ⟨hlt, hascii⟩ := hexFrom_lt h
        have hlen' : bytes.length = 3 := Nat.succ.inj hlen
        rw [hlen'] at hlt
        refine ⟨by omega, List.forall_mem_cons.mpr ⟨?_, hascii⟩⟩
        rw [hplus]
        decide
    · rw [if_neg hplus] at h
      obtain ⟨hlt, hascii⟩ := hexFrom_lt h
      rw [hlen] at hlt
      exact ⟨by omega, hascii⟩

theorem valid_append_tail {front rest : List UInt8} (h : Utf8.Valid (front ++ rest))
    (hascii : ∀ byte ∈ front, byte < 0x80) : Utf8.Valid rest := by
  induction front with
  | nil => exact h
  | cons byte front ih =>
    exact ih (valid_tail h (hascii byte List.mem_cons_self))
      fun b hb => hascii b (List.mem_cons_of_mem _ hb)

theorem get_of_valid {front rest : List UInt8} (h : Utf8.Valid (front ++ rest))
    (hrest : Utf8.Valid rest) : get (front ++ rest) front.length = some front := by
  rw [get, List.take_left, List.drop_left, if_pos]
  refine ⟨by simp, (boundary_iff _).mpr h.startsWhole, (boundary_iff _).mpr hrest.startsWhole⟩

theorem shortEscape_ascii {byte : UInt8} {c : Char} (h : Json.shortEscape byte = some c) :
    byte < 0x80 ∧ byte ≠ 0x75 := by
  simp only [Json.shortEscape] at h
  repeat' split at h
  all_goals first | (subst_vars; decide) | cases h

theorem byte_eq_iff {c : Char} (hc : c.toNat < 0x80) (d : Char) (hd : d.toNat < 0x80) :
    UInt8.ofNat c.toNat = UInt8.ofNat d.toNat ↔ c = d := by
  constructor
  · intro h
    have hn := congrArg UInt8.toNat h
    rw [UInt8.toNat_ofNat', UInt8.toNat_ofNat', Nat.mod_eq_of_lt (by omega),
      Nat.mod_eq_of_lt (by omega)] at hn
    exact Char.toNat_inj.mp hn
  · intro h
    rw [h]

theorem piece_ascii {c : Char} (hc : c.toNat < 0x80) (hquote : c ≠ '"') (hslash : c ≠ '\\')
    (rest : List UInt8) :
    piece (UInt8.ofNat c.toNat :: rest) = .ok (.char c rest) := by
  have hlt : UInt8.ofNat c.toNat < 0x80 := by
    rw [UInt8.lt_iff_toNat_lt, UInt8.toNat_ofNat', Nat.mod_eq_of_lt (by omega)]
    exact hc
  have hofNat : Char.ofNat (UInt8.ofNat c.toNat).toNat = c := by
    rw [UInt8.toNat_ofNat', Nat.mod_eq_of_lt (by omega), Char.ofNat_toNat]
  rw [piece, if_neg, if_pos, if_pos hlt, hofNat]
  · intro h
    exact hslash ((byte_eq_iff hc '\\' (by decide)).mp h)
  · intro h
    exact hquote ((byte_eq_iff hc '"' (by decide)).mp h)

theorem ne_of_wide {lead byte : UInt8} (h : 0x80 ≤ lead) (hb : byte < 0x80) : lead ≠ byte := by
  rintro rfl
  exact UInt8.lt_irrefl lead (UInt8.lt_of_lt_of_le hb h)

theorem piece_wide {c : Char} (hc : 0x80 ≤ c.toNat) {rest : List UInt8}
    (hv : Utf8.Valid (String.utf8EncodeChar c ++ rest)) :
    piece (String.utf8EncodeChar c ++ rest) = .ok (.char c rest) := by
  obtain ⟨lead, tail, hshape, hlead⟩ := Utf8.utf8EncodeChar_wide hc
  have hb := (boundary_iff _).mpr hv.startsWhole
  have hfirst := firstChar_encode c rest
  have hdrop : (String.utf8EncodeChar c ++ rest).drop c.utf8Size = rest := by
    rw [← String.length_utf8EncodeChar, List.drop_left]
  rw [hshape, List.cons_append] at hb hfirst hdrop ⊢
  rw [piece, if_neg (ne_of_wide hlead (by decide)), if_pos (ne_of_wide hlead (by decide)),
    if_neg (fun hlt => UInt8.lt_irrefl lead (UInt8.lt_of_lt_of_le hlt hlead)), sliceFrom, if_pos hb]
  simp only [bind, Except.bind, hfirst, Option.getD_some, hdrop]

theorem slice_hex {hex rest : List UInt8} (hlen : hex.length = 4)
    (hv : Utf8.Valid (hex ++ rest)) (hvr : Utf8.Valid rest) : slice (hex ++ rest) 4 = .ok hex := by
  have hget := get_of_valid hv hvr
  rw [hlen] at hget
  rw [slice, hget]

theorem unicodeEscape_hex {hex rest : List UInt8} (hlen : hex.length = 4)
    (hv : Utf8.Valid (hex ++ rest)) (hvr : Utf8.Valid rest) {code : Nat}
    (h : fromStrRadix hex = some code) (hhigh : Json.isHigh code = false)
    (hlow : Json.isLow code = false) :
    unicodeEscape (hex ++ rest) = .ok (.char (Char.ofNat code) rest) := by
  have hlt : code < 0x110000 := by
    have := (fromStrRadix_lt hlen h).1
    omega
  have hdrop : (hex ++ rest).drop 4 = rest := by rw [← hlen, List.drop_left]
  rw [unicodeEscape, if_neg (by rw [List.length_append]; omega), slice_hex hlen hv hvr]
  simp only [bind, Except.bind, h, hhigh, hlow, hdrop, Bool.false_eq_true, if_false,
    charOf_eq hlt hhigh hlow]

theorem combine_valid {high low : Nat} (hhigh : Json.isHigh high = true)
    (hlow : Json.isLow low = true) :
    Json.combine high low < 0x110000 ∧ Json.isHigh (Json.combine high low) = false ∧
      Json.isLow (Json.combine high low) = false := by
  simp only [Json.isHigh, Json.isLow, Bool.and_eq_true, decide_eq_true_eq] at hhigh hlow
  have hcombine : Json.combine high low = 65536 + (high - 55296) * 1024 + (low - 56320) := rfl
  generalize Json.combine high low = code at hcombine
  simp only [Json.isHigh, Json.isLow, Bool.and_eq_false_iff, decide_eq_false_iff_not]
  omega

theorem lowEscape_of_pair {hex rest : List UInt8} (hlen : hex.length = 4)
    (hv : Utf8.Valid (0x5C :: 0x75 :: (hex ++ rest))) {high low : Nat}
    (h : fromStrRadix hex = some low) (hhigh : Json.isHigh high = true)
    (hlow : Json.isLow low = true) :
    lowEscape high (0x5C :: 0x75 :: (hex ++ rest)) =
        .ok (.char (Char.ofNat (Json.combine high low)) rest) ∧ Utf8.Valid rest := by
  have hvhex := valid_tail (valid_tail hv (by decide)) (by decide)
  have hvr := valid_append_tail hvhex (fromStrRadix_lt hlen h).2
  refine ⟨?_, hvr⟩
  generalize htail : 0x5C :: 0x75 :: (hex ++ rest) = tail at hv
  have hget : get tail tail.length = some tail := by
    have := @get_of_valid tail [] (by rwa [List.append_nil]) Utf8.valid_nil
    rwa [List.append_nil] at this
  have hget' : get (tail.drop 2) 4 = some hex := by
    have := get_of_valid hvhex hvr
    rw [hlen] at this
    rw [← htail]
    exact this
  have hprefix : [0x5C, 0x75].isPrefixOf tail = true := by
    rw [← htail]
    rfl
  have hdrop : tail.drop 6 = rest := by
    rw [← htail]
    change (hex ++ rest).drop 4 = rest
    rw [← hlen, List.drop_left]
  obtain ⟨hlt, hnhigh, hnlow⟩ := combine_valid hhigh hlow
  simp only [lowEscape, hget, hprefix, hget', h, hlow, hdrop, if_true, Bool.not_true,
    Bool.false_eq_true, if_false, charOf_eq hlt hnhigh hnlow]

theorem unicodeEscape_pair {hex hex' rest : List UInt8} (hlen : hex.length = 4)
    (hlen' : hex'.length = 4) (hv : Utf8.Valid (hex ++ 0x5C :: 0x75 :: (hex' ++ rest)))
    {high low : Nat} (h : fromStrRadix hex = some high) (h' : fromStrRadix hex' = some low)
    (hhigh : Json.isHigh high = true) (hlow : Json.isLow low = true) :
    unicodeEscape (hex ++ 0x5C :: 0x75 :: (hex' ++ rest)) =
        .ok (.char (Char.ofNat (Json.combine high low)) rest) ∧ Utf8.Valid rest := by
  have hvtail := valid_append_tail hv (fromStrRadix_lt hlen h).2
  obtain ⟨hescape, hvr⟩ := lowEscape_of_pair hlen' hvtail h' hhigh hlow
  refine ⟨?_, hvr⟩
  rw [unicodeEscape, if_neg (by rw [List.length_append]; omega), slice_hex hlen hv hvtail]
  simp only [bind, Except.bind, h, hhigh, if_true]
  rw [← hlen, List.drop_left]
  exact hescape

/-- A character of the loose dialect is what one turn of the loop finds. -/
theorem piece_of_ch {text rest : List UInt8} {c : Char} (hv : Utf8.Valid text)
    (h : Ch loose text c rest) : piece text = .ok (.char c rest) ∧ Utf8.Valid rest := by
  cases h with
  | plain c rest h hquote hslash =>
    rcases Nat.lt_or_ge c.toNat 0x80 with hc | hc
    · rw [Utf8.utf8EncodeChar_ascii hc] at hv ⊢
      refine ⟨piece_ascii hc hquote hslash rest, valid_tail hv ?_⟩
      rw [UInt8.lt_iff_toNat_lt, UInt8.toNat_ofNat', Nat.mod_eq_of_lt (by omega)]
      exact hc
    · exact ⟨piece_wide hc hv, valid_after_char hv⟩
  | short byte c rest h =>
    obtain ⟨hlt, hne⟩ := shortEscape_ascii h
    refine ⟨?_, valid_tail (valid_tail hv (by decide)) hlt⟩
    rw [piece, if_neg (by decide), if_neg (by decide), escape, if_neg hne, h]
  | code hex code rest hlen h hhigh hlow =>
    have hvh := valid_tail (valid_tail hv (by decide)) (by decide)
    have hvr := valid_append_tail hvh (fromStrRadix_lt hlen h).2
    refine ⟨?_, hvr⟩
    rw [piece, if_neg (by decide), if_neg (by decide), escape, if_pos rfl]
    exact unicodeEscape_hex hlen hvh hvr h hhigh hlow
  | pair hex hex' high low rest hlen hlen' h h' hhigh hlow =>
    have hvh := valid_tail (valid_tail hv (by decide)) (by decide)
    obtain ⟨hescape, hvr⟩ := unicodeEscape_pair hlen hlen' hvh h h' hhigh hlow
    refine ⟨?_, hvr⟩
    rw [piece, if_neg (by decide), if_neg (by decide), escape, if_pos rfl]
    exact hescape

/-- An escape whose four bytes end inside a character. -/
def Torn (after : List UInt8) : Prop :=
  4 ≤ after.length ∧ isCharBoundary (after.drop 4) = false

theorem unicodeEscape_torn {after : List UInt8} (h : Torn after) : unicodeEscape after = .error .panic := by
  have hslice : slice after 4 = .error .panic := by
    rw [slice, get, if_neg]
    rintro ⟨-, -, hd⟩
    rw [h.2] at hd
    cases hd
  rw [unicodeEscape, if_neg (Nat.not_lt.mpr h.1), hslice]
  rfl

/-- What a `\u` escape comes to, when it is not cut short and not torn. -/
theorem unicodeEscape_slice {after : List UInt8} (hv : Utf8.Valid after) (hlen : 4 ≤ after.length)
    (ht : ¬ Torn after) :
    slice after 4 = .ok (after.take 4) ∧ Utf8.Valid (after.drop 4) := by
  have hb := (boundary_iff _).mpr hv.startsWhole
  have hd : isCharBoundary (after.drop 4) = true := by
    by_contra hne
    exact ht ⟨hlen, Bool.eq_false_iff.mpr hne⟩
  refine ⟨?_, hv.drop ((boundary_iff _).mp hd)⟩
  rw [slice, get, if_pos ⟨hlen, hb, hd⟩]

theorem split_four {after : List UInt8} (hlen : 4 ≤ after.length) :
    (after.take 4).length = 4 ∧ after = after.take 4 ++ after.drop 4 :=
  ⟨by rw [List.length_take]; omega, (List.take_append_drop 4 after).symm⟩

/-- The second half of a surrogate pair is there, or the escape is refused. -/
theorem lowEscape_cases (code : Nat) (tail : List UInt8) :
    (∃ hex' low rest, hex'.length = 4 ∧ fromStrRadix hex' = some low ∧ Json.isLow low = true ∧
        tail = 0x5C :: 0x75 :: (hex' ++ rest)) ∨
      ∃ e, lowEscape code tail = .error (.err e) := by
  rw [lowEscape]
  cases hget : get tail tail.length with
  | none => exact .inr ⟨_, rfl⟩
  | some tail' =>
    obtain ⟨htail', -⟩ := get_eq_some hget
    rw [List.take_length] at htail'
    subst htail'
    by_cases hprefix : [0x5C, 0x75].isPrefixOf tail' = true
    · simp only [if_pos hprefix]
      obtain ⟨digits, rfl⟩ := List.isPrefixOf_iff_prefix.mp hprefix
      cases hget' : get (([0x5C, 0x75] ++ digits).drop 2) 4 with
      | none => exact .inr ⟨_, rfl⟩
      | some hex' =>
        cases hlow : fromStrRadix hex' with
        | none =>
          simp only [hlow]
          exact .inr ⟨_, rfl⟩
        | some low =>
          cases hislow : Json.isLow low with
          | false =>
            simp only [hlow, hislow, Bool.not_false, if_true]
            exact .inr ⟨_, rfl⟩
          | true =>
            obtain ⟨hhex, hle, -⟩ := get_eq_some hget'
            change 4 ≤ digits.length at hle
            change hex' = digits.take 4 at hhex
            obtain ⟨hfour, hsplit⟩ := split_four hle
            refine .inl ⟨hex', low, digits.drop 4, hhex ▸ hfour, hlow, hislow, ?_⟩
            rw [hhex]
            exact congrArg (fun digits => 0x5C :: 0x75 :: digits) hsplit
    · simp only [if_neg hprefix]
      exact .inr ⟨_, rfl⟩

/-- A `\u` escape is a character of the loose dialect, or it is torn, or it is refused. -/
theorem unicodeEscape_cases {after : List UInt8} (hv : Utf8.Valid after) :
    (∃ c rest, Ch loose (0x5C :: 0x75 :: after) c rest) ∨ Torn after ∨
      ∃ e, unicodeEscape after = .error (.err e) := by
  by_cases hlen : after.length < 4
  · rw [unicodeEscape, if_pos hlen]
    exact .inr (.inr ⟨_, rfl⟩)
  have hlen' : 4 ≤ after.length := Nat.not_lt.mp hlen
  by_cases ht : Torn after
  · exact .inr (.inl ht)
  obtain ⟨hfour, hsplit⟩ := split_four hlen'
  rw [unicodeEscape, if_neg hlen, (unicodeEscape_slice hv hlen' ht).1]
  simp only [bind, Except.bind]
  cases hcode : fromStrRadix (after.take 4) with
  | none => exact .inr (.inr ⟨_, rfl⟩)
  | some code =>
    cases hhigh : Json.isHigh code with
    | false =>
      cases hlow : Json.isLow code with
      | true =>
        simp only [hhigh, hlow, Bool.false_eq_true, if_true, if_false]
        exact .inr (.inr ⟨_, rfl⟩)
      | false =>
        have hch := Ch.code (D := loose) (after.take 4) code (after.drop 4) hfour hcode hhigh hlow
        rw [← hsplit] at hch
        exact .inl ⟨_, _, hch⟩
    | true =>
      simp only [hhigh, if_true]
      rcases lowEscape_cases code (after.drop 4) with ⟨hex', low, rest, hlen', hlowHex, hlow, htail⟩ | herr
      · have hch := Ch.pair (D := loose) (after.take 4) hex' code low rest hfour hlen' hcode hlowHex hhigh hlow
        rw [← htail, ← hsplit] at hch
        exact .inl ⟨_, _, hch⟩
      · exact .inr (.inr herr)

/-- A byte in front of which a character starts that is neither a quote nor a backslash. -/
theorem plain_ch {byte : UInt8} {text : List UInt8} (hv : Utf8.Valid (byte :: text))
    (hquote : byte ≠ 0x22) (hslash : byte ≠ 0x5C) :
    ∃ c rest, Ch loose (byte :: text) c rest := by
  obtain ⟨cs, hcs⟩ := hv
  cases cs with
  | nil => cases hcs
  | cons c cs =>
    rw [Utf8.encode_cons] at hcs
    have hne : ∀ d : Char, d.toNat < 0x80 → byte ≠ UInt8.ofNat d.toNat → c ≠ d := by
      rintro d hd hbyte rfl
      rw [Utf8.utf8EncodeChar_ascii hd] at hcs
      exact hbyte (List.cons.inj hcs).1.symm
    rw [← hcs]
    exact ⟨c, _, .plain c _ rfl (hne '"' (by decide) hquote) (hne '\\' (by decide) hslash)⟩

theorem piece_quote (rest : List UInt8) : piece (0x22 :: rest) = .ok (.done rest) := by
  rw [piece, if_pos rfl]

theorem piece_escape (text : List UInt8) : piece (0x5C :: text) = escape text := by
  rw [piece, if_neg (by decide), if_neg (by decide)]

theorem piece_torn {after : List UInt8} (h : Torn after) : piece (0x5C :: 0x75 :: after) = .error .panic := by
  rw [piece_escape, escape, if_pos rfl, unicodeEscape_torn h]

/-- One turn ends the string, finds a character of the loose dialect, comes to a torn escape or refuses. -/
theorem piece_cases {text : List UInt8} (hv : Utf8.Valid text) :
    (∃ rest, text = 0x22 :: rest) ∨ (∃ c rest, Ch loose text c rest) ∨
      (∃ after, text = 0x5C :: 0x75 :: after ∧ Torn after) ∨ ∃ e, piece text = .error (.err e) := by
  cases text with
  | nil => exact .inr (.inr (.inr ⟨_, rfl⟩))
  | cons byte text =>
    by_cases hquote : byte = 0x22
    · exact .inl ⟨text, by rw [hquote]⟩
    by_cases hslash : byte = 0x5C
    · subst hslash
      have hvtext := valid_tail hv (by decide)
      rw [piece_escape]
      cases text with
      | nil => exact .inr (.inr (.inr ⟨_, rfl⟩))
      | cons escaped after =>
        rw [escape]
        by_cases hu : escaped = 0x75
        · subst hu
          rw [if_pos rfl]
          rcases unicodeEscape_cases (valid_tail hvtext (by decide)) with ⟨c, rest, hch⟩ | ht | herr
          · exact .inr (.inl ⟨c, rest, hch⟩)
          · exact .inr (.inr (.inl ⟨after, rfl, ht⟩))
          · exact .inr (.inr (.inr herr))
        · rw [if_neg hu]
          cases hshort : Json.shortEscape escaped with
          | none => exact .inr (.inr (.inr ⟨_, rfl⟩))
          | some c => exact .inr (.inl ⟨c, after, .short escaped c after hshort⟩)
    · exact .inr (.inl (plain_ch hv hquote hslash))

/-- A string that comes to a torn escape. -/
inductive TornChars : List UInt8 → Prop
  | here {after : List UInt8} (h : Torn after) : TornChars (0x5C :: 0x75 :: after)
  | later {text next : List UInt8} {c : Char} (h : Ch loose text c next) (ht : TornChars next) :
      TornChars text

theorem string_of_chars {text rest : List UInt8} {cs : List Char} (hv : Utf8.Valid text)
    (h : Chars loose text cs rest) {fuel : Nat} (hfuel : text.length < fuel) :
    string fuel text = .ok (cs, rest) ∧ Utf8.Valid rest := by
  induction h generalizing fuel with
  | nil rest =>
    obtain ⟨fuel, rfl⟩ := Nat.exists_eq_succ_of_ne_zero (Nat.ne_of_gt (Nat.zero_lt_of_lt hfuel))
    refine ⟨?_, valid_tail hv (by decide)⟩
    rw [string, piece_quote]
    rfl
  | cons h _ ih =>
    obtain ⟨fuel, rfl⟩ := Nat.exists_eq_succ_of_ne_zero (Nat.ne_of_gt (Nat.zero_lt_of_lt hfuel))
    obtain ⟨hpiece, hvnext⟩ := piece_of_ch hv h
    have hlen := length_of_ch h
    obtain ⟨hstring, hvrest⟩ := @ih hvnext fuel (by omega)
    refine ⟨?_, hvrest⟩
    rw [string, hpiece]
    simp only [bind, Except.bind, hstring]

theorem string_of_torn {text : List UInt8} (hv : Utf8.Valid text) (h : TornChars text)
    {fuel : Nat} (hfuel : text.length < fuel) : string fuel text = .error .panic := by
  induction h generalizing fuel with
  | here h =>
    obtain ⟨fuel, rfl⟩ := Nat.exists_eq_succ_of_ne_zero (Nat.ne_of_gt (Nat.zero_lt_of_lt hfuel))
    rw [string, piece_torn h]
    rfl
  | later h _ ih =>
    obtain ⟨fuel, rfl⟩ := Nat.exists_eq_succ_of_ne_zero (Nat.ne_of_gt (Nat.zero_lt_of_lt hfuel))
    obtain ⟨hpiece, hvnext⟩ := piece_of_ch hv h
    have hlen := length_of_ch h
    rw [string, hpiece]
    simp only [bind, Except.bind, @ih hvnext fuel (by omega)]

/-- The turns of a string: it ends, it tears, or it is refused. -/
theorem string_cases {text : List UInt8} (hv : Utf8.Valid text) {fuel : Nat}
    (hfuel : text.length < fuel) :
    (∃ cs rest, Chars loose text cs rest ∧ string fuel text = .ok (cs, rest)) ∨
      (TornChars text ∧ string fuel text = .error .panic) ∨
      ∃ e, string fuel text = .error (.err e) := by
  induction fuel generalizing text with
  | zero => omega
  | succ fuel ih =>
    rw [string]
    rcases piece_cases hv with ⟨rest, rfl⟩ | ⟨c, next, hch⟩ | ⟨after, rfl, ht⟩ | ⟨e, herr⟩
    · rw [piece_quote]
      exact .inl ⟨[], rest, .nil rest, rfl⟩
    · obtain ⟨hpiece, hvnext⟩ := piece_of_ch hv hch
      have hlen := length_of_ch hch
      rw [hpiece]
      rcases ih hvnext (by omega) with ⟨cs, rest, hcs, heq⟩ | ⟨ht, heq⟩ | ⟨e, heq⟩
      · refine .inl ⟨c :: cs, rest, .cons hch hcs, ?_⟩
        simp only [bind, Except.bind, heq]
      · refine .inr (.inl ⟨.later hch ht, ?_⟩)
        simp only [bind, Except.bind, heq]
      · refine .inr (.inr ⟨e, ?_⟩)
        simp only [bind, Except.bind, heq]
    · rw [piece_torn ht]
      exact .inr (.inl ⟨.here ht, rfl⟩)
    · rw [herr]
      exact .inr (.inr ⟨e, rfl⟩)

end SupraHarness.Llm.Scanner
