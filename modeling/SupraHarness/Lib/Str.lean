import SupraHarness.Lib.Utf8

/-!
# Text from bytes

The functions of the standard library that read text out of a byte string: decoding, with the
malformed parts refused or replaced, and cutting the text into lines and trimming them.
-/
namespace SupraHarness.Str

/-- What a byte string starts with: a character and the number of its bytes, or a malformed part
of so many bytes, which more bytes could complete or not. -/
inductive First where
  | char (c : Char) (len : Nat)
  | malformed (len : Nat) (truncated : Bool)
  deriving DecidableEq, Repr

/-- The six payload bits of a continuation byte. -/
def low (byte : UInt8) : Nat := byte.toNat % 64

/-- The second bytes that make neither an overlong form, nor a surrogate, nor too large a number. -/
def secondOf (lead second : UInt8) : Bool :=
  Utf8.continuation second &&
    (lead != 0xE0 || 0xA0 ≤ second) && (lead != 0xED || second ≤ 0x9F) &&
    (lead != 0xF0 || 0x90 ≤ second) && (lead != 0xF4 || second ≤ 0x8F)

/-- The character or the malformed part at the front. -/
def first (lead : UInt8) (rest : List UInt8) : First :=
  if lead < 0x80 then .char (.ofNat lead.toNat) 1
  else if 0xC2 ≤ lead ∧ lead ≤ 0xDF then
    match rest with
    | [] => .malformed 1 true
    | b1 :: _ =>
      if Utf8.continuation b1 then .char (.ofNat (lead.toNat % 32 * 64 + low b1)) 2
      else .malformed 1 false
  else if 0xE0 ≤ lead ∧ lead ≤ 0xEF then
    match rest with
    | [] => .malformed 1 true
    | b1 :: rest =>
      if !secondOf lead b1 then .malformed 1 false
      else
        match rest with
        | [] => .malformed 2 true
        | b2 :: _ =>
          if Utf8.continuation b2 then
            .char (.ofNat (lead.toNat % 16 * 4096 + low b1 * 64 + low b2)) 3
          else .malformed 2 false
  else if 0xF0 ≤ lead ∧ lead ≤ 0xF4 then
    match rest with
    | [] => .malformed 1 true
    | b1 :: rest =>
      if !secondOf lead b1 then .malformed 1 false
      else
        match rest with
        | [] => .malformed 2 true
        | b2 :: rest =>
          if !Utf8.continuation b2 then .malformed 2 false
          else
            match rest with
            | [] => .malformed 3 true
            | b3 :: _ =>
              if Utf8.continuation b3 then
                .char (.ofNat (lead.toNat % 8 * 262144 + low b1 * 4096 + low b2 * 64 + low b3)) 4
              else .malformed 3 false
  else .malformed 1 false

/-- The text with every malformed part replaced, from `fuel` characters or fewer. -/
def lossy : Nat → List UInt8 → List Char
  | 0, _ => []
  | _, [] => []
  | fuel + 1, lead :: rest =>
    match first lead rest with
    | .char c len => c :: lossy fuel ((lead :: rest).drop len)
    | .malformed len _ => '\uFFFD' :: lossy fuel ((lead :: rest).drop len)

/-- `String::from_utf8_lossy`. -/
def fromUtf8Lossy (bytes : List UInt8) : List Char := lossy bytes.length bytes

/-- The text of a byte string, or how many bytes of it are text and how many, if that is known,
are not. -/
def strict : Nat → Nat → List UInt8 → Except (Nat × Option Nat) (List Char)
  | 0, _, _ => .ok []
  | _, _, [] => .ok []
  | fuel + 1, upTo, lead :: rest =>
    match first lead rest with
    | .char c len =>
      match strict fuel (upTo + len) ((lead :: rest).drop len) with
      | .ok cs => .ok (c :: cs)
      | .error e => .error e
    | .malformed len truncated => .error (upTo, if truncated then none else some len)

/-- `str::from_utf8`, with the text of its error. -/
def fromUtf8 (bytes : List UInt8) : Except String (List Char) :=
  match strict bytes.length 0 bytes with
  | .ok cs => .ok cs
  | .error (upTo, some len) =>
    .error s!"invalid utf-8 sequence of {len} bytes from index {upTo}"
  | .error (upTo, none) => .error s!"incomplete utf-8 byte sequence from index {upTo}"

/-- `str::lines`: a line feed ends a line, and takes a carriage return before it along. -/
def linesFrom (line : List Char) : List Char → List (List Char)
  | [] => if line = [] then [] else [line]
  | c :: cs =>
    if c = '\n' then (if line.getLast? = some '\r' then line.dropLast else line) :: linesFrom [] cs
    else linesFrom (line ++ [c]) cs

def lines (text : List Char) : List (List Char) := linesFrom [] text

theorem linesFrom_char {c : Char} (h : c ≠ '\n') (line text : List Char) :
    linesFrom line (c :: text) = linesFrom (line ++ [c]) text := by
  rw [linesFrom, if_neg h]

/-- What stands before the next line feed joins the line. -/
theorem linesFrom_append {text : List Char} (h : '\n' ∉ text) (line rest : List Char) :
    linesFrom line (text ++ rest) = linesFrom (line ++ text) rest := by
  induction text generalizing line with
  | nil => rw [List.nil_append, List.append_nil]
  | cons c text ih =>
    rw [List.mem_cons, not_or] at h
    rw [List.cons_append, linesFrom_char (Ne.symm h.1), ih h.2, List.append_assoc, List.singleton_append]

theorem linesFrom_feed {line : List Char} (h : '\r' ∉ line) (text : List Char) :
    linesFrom line ('\n' :: text) = line :: linesFrom [] text := by
  have hlast : line.getLast? ≠ some '\r' := fun hlast => h (List.mem_of_getLast? hlast)
  rw [linesFrom, if_pos rfl, if_neg hlast]

theorem linesFrom_crlf (line text : List Char) :
    linesFrom line ('\r' :: '\n' :: text) = line :: linesFrom [] text := by
  rw [linesFrom_char (by decide), linesFrom, if_pos rfl, if_pos List.getLast?_concat, List.dropLast_concat]

/-- `char::is_whitespace`. -/
def isWhitespace (c : Char) : Bool :=
  (0x09 ≤ c.toNat && c.toNat ≤ 0x0D) || c.toNat = 0x20 || c.toNat = 0x85 || c.toNat = 0xA0 ||
    c.toNat = 0x1680 || (0x2000 ≤ c.toNat && c.toNat ≤ 0x200A) || c.toNat = 0x2028 ||
    c.toNat = 0x2029 || c.toNat = 0x202F || c.toNat = 0x205F || c.toNat = 0x3000

/-- `str::trim`. -/
def trim (text : List Char) : List Char :=
  ((text.dropWhile isWhitespace).reverse.dropWhile isWhitespace).reverse

def stripPrefix (front text : List Char) : Option (List Char) :=
  if front.isPrefixOf text then some (text.drop front.length) else none

/-- The digits of a `usize`, from what was read before them. -/
def parseDigits : Nat → List Char → Except String Nat
  | value, [] => .ok value
  | value, c :: cs =>
    if !c.isDigit then .error "invalid digit found in string"
    else
      let next := 10 * value + (c.toNat - '0'.toNat)
      if 2 ^ 64 ≤ next then .error "number too large to fit in target type" else parseDigits next cs

/-- `str::parse::<usize>`, with the text of its error. -/
def parseUsize (text : List Char) : Except String Nat :=
  match text with
  | [] => .error "cannot parse integer from empty string"
  | ['+'] => .error "invalid digit found in string"
  | '+' :: digits => parseDigits 0 digits
  | digits => parseDigits 0 digits

theorem parseDigits_eq {cs : List Char} (digits : ∀ c ∈ cs, c.isDigit) (value : Nat)
    (h : Nat.ofDigitChars 10 cs value < 2 ^ 64) :
    parseDigits value cs = .ok (Nat.ofDigitChars 10 cs value) := by
  induction cs generalizing value with
  | nil => simp [parseDigits]
  | cons c cs ih =>
    have hdigit := digits c (by simp)
    rw [Nat.ofDigitChars_cons] at h ⊢
    have hnext : 10 * value + (c.toNat - '0'.toNat) < 2 ^ 64 := by
      rw [Nat.ofDigitChars_eq_ofDigitChars_zero] at h
      have hpow : 1 ≤ 10 ^ cs.length := Nat.one_le_pow _ _ (by omega)
      have := Nat.mul_le_mul_right (10 * value + (c.toNat - '0'.toNat)) hpow
      omega
    simp only [parseDigits, hdigit, Bool.not_true, Bool.false_eq_true, if_false, if_neg (Nat.not_le.mpr hnext)]
    exact ih (fun d hd => digits d (by simp [hd])) _ h

/-- A number that fits is read back from its decimal digits. -/
theorem parseUsize_toDigits {n : Nat} (h : n < 2 ^ 64) : parseUsize (Nat.toDigits 10 n) = .ok n := by
  have hdigits : ∀ c ∈ Nat.toDigits 10 n, c.isDigit :=
    fun c hc => Nat.isDigit_of_mem_toDigits (by omega) (by omega) hc
  have hparse := parseDigits_eq hdigits 0 (by rwa [Nat.ofDigitChars_ten_toDigits])
  rw [Nat.ofDigitChars_ten_toDigits] at hparse
  unfold parseUsize
  split
  next hnil => exact absurd hnil Nat.toDigits_ne_nil
  next hplus => exact absurd (hdigits '+' (by simp [hplus])) (by decide)
  next digits _ hplus => exact absurd (hdigits '+' (by simp [hplus])) (by decide)
  next => exact hparse

section

open Utf8

theorem char_ofNat_val (c : Char) {n : Nat} (h : n = c.val.toNat) : Char.ofNat n = c := by
  subst h
  exact Char.ofNat_toNat c

theorem low_tail (n : Nat) : low (UInt8.ofNat (n % 64 + 128)) = n % 64 := by
  simp only [low, UInt8.toNat_ofNat']
  omega

theorem continuation_tail (n : Nat) : continuation (UInt8.ofNat (n % 64 + 128)) = true := by
  rw [continuation_ofNat (by omega)]
  omega

theorem toNat_ofNat {n : Nat} (h : n < 256) : (UInt8.ofNat n).toNat = n := by
  rw [UInt8.toNat_ofNat', Nat.mod_eq_of_lt h]

/-- The first character of encoded text is found, whatever follows. -/
theorem first_encode (c : Char) (more : List UInt8) :
    ∃ lead rest, String.utf8EncodeChar c = lead :: rest ∧
      first lead (rest ++ more) = .char c (rest.length + 1) := by
  have hlt := toNat_lt c
  have hvalid := c.valid
  simp only [UInt32.isValidChar, Nat.isValidChar] at hvalid
  simp only [String.utf8EncodeChar]
  split_ifs with h1 h2 h3
  · refine ⟨_, _, rfl, ?_⟩
    have hlead := toNat_ofNat (n := c.val.toNat) (by omega)
    simp only [first, UInt8.lt_iff_toNat_lt, hlead, UInt8.reduceToNat]
    rw [if_pos (by omega), char_ofNat_val c rfl]
    rfl
  · refine ⟨_, _, rfl, ?_⟩
    have hlead := toNat_ofNat (n := c.val.toNat / 64 % 32 + 192) (by omega)
    simp only [first, UInt8.lt_iff_toNat_lt, UInt8.le_iff_toNat_le, hlead, UInt8.reduceToNat,
      List.cons_append, continuation_tail, low_tail]
    rw [if_neg (by omega), if_pos (by omega), if_pos trivial, char_ofNat_val c (by omega)]
    rfl
  · refine ⟨_, _, rfl, ?_⟩
    have hlead := toNat_ofNat (n := c.val.toNat / 4096 % 16 + 224) (by omega)
    have hsecond := toNat_ofNat (n := c.val.toNat / 64 % 64 + 128) (by omega)
    have hok : secondOf (UInt8.ofNat (c.val.toNat / 4096 % 16 + 224))
        (UInt8.ofNat (c.val.toNat / 64 % 64 + 128)) = true := by
      simp only [secondOf, continuation_tail, bne, Bool.true_and, Bool.and_eq_true, Bool.or_eq_true,
        Bool.not_eq_true', beq_eq_false_iff_ne, ne_eq, ← UInt8.toNat_inj, UInt8.le_iff_toNat_le, decide_eq_true_eq, hlead,
        hsecond, UInt8.reduceToNat]
      omega
    simp only [first, UInt8.lt_iff_toNat_lt, UInt8.le_iff_toNat_le, hlead, UInt8.reduceToNat,
      List.cons_append, hok, continuation_tail, low_tail]
    rw [if_neg (by omega), if_neg (by omega), if_pos (by omega)]
    simp only [Bool.not_true, if_true, Bool.false_eq_true, if_false]
    rw [char_ofNat_val c (by omega)]
    rfl
  · refine ⟨_, _, rfl, ?_⟩
    have hlead := toNat_ofNat (n := c.val.toNat / 262144 % 8 + 240) (by omega)
    have hsecond := toNat_ofNat (n := c.val.toNat / 4096 % 64 + 128) (by omega)
    have hok : secondOf (UInt8.ofNat (c.val.toNat / 262144 % 8 + 240))
        (UInt8.ofNat (c.val.toNat / 4096 % 64 + 128)) = true := by
      simp only [secondOf, continuation_tail, bne, Bool.true_and, Bool.and_eq_true, Bool.or_eq_true,
        Bool.not_eq_true', beq_eq_false_iff_ne, ne_eq, ← UInt8.toNat_inj, UInt8.le_iff_toNat_le, decide_eq_true_eq, hlead,
        hsecond, UInt8.reduceToNat]
      omega
    simp only [first, UInt8.lt_iff_toNat_lt, UInt8.le_iff_toNat_le, hlead, UInt8.reduceToNat,
      List.cons_append, hok, continuation_tail, low_tail]
    rw [if_neg (by omega), if_neg (by omega), if_neg (by omega), if_pos (by omega)]
    simp only [Bool.not_true, if_true, Bool.false_eq_true, if_false]
    rw [char_ofNat_val c (by omega)]
    rfl

theorem lossy_encode (cs : List Char) (fuel : Nat) (h : (encode cs).length ≤ fuel) :
    lossy fuel (encode cs) = cs := by
  induction cs generalizing fuel with
  | nil => cases fuel <;> rfl
  | cons c cs ih =>
    obtain ⟨lead, rest, hc, hfirst⟩ := first_encode c (encode cs)
    rw [encode_cons, hc] at h ⊢
    cases fuel with
    | zero => simp at h
    | succ fuel =>
      simp only [List.cons_append, lossy, hfirst]
      rw [List.drop_succ_cons, List.drop_left, ih]
      simp at h
      omega

/-- Encoded text decodes to itself. -/
theorem fromUtf8Lossy_encode (cs : List Char) : fromUtf8Lossy (encode cs) = cs :=
  lossy_encode cs _ (Nat.le_refl _)

theorem strict_encode (cs : List Char) (fuel upTo : Nat) (h : (encode cs).length ≤ fuel) :
    strict fuel upTo (encode cs) = .ok cs := by
  induction cs generalizing fuel upTo with
  | nil => cases fuel <;> rfl
  | cons c cs ih =>
    obtain ⟨lead, rest, hc, hfirst⟩ := first_encode c (encode cs)
    rw [encode_cons, hc] at h ⊢
    cases fuel with
    | zero => simp at h
    | succ fuel =>
      simp only [List.cons_append, strict, hfirst]
      rw [List.drop_succ_cons, List.drop_left, ih]
      simp at h
      omega

theorem fromUtf8_encode (cs : List Char) : fromUtf8 (encode cs) = .ok cs := by
  simp [fromUtf8, strict_encode cs _ 0 (Nat.le_refl _)]

theorem val_ofNat {n : Nat} (valid : n.isValidChar) : (Char.ofNat n).val.toNat = n := by
  rw [Char.ofNat, dif_pos valid]
  rfl

theorem ofNat_eq {byte : UInt8} {n : Nat} (h : n = byte.toNat) : UInt8.ofNat n = byte := by
  subst h
  simp

theorem low_eq (byte : UInt8) : low byte = byte.toNat % 64 := rfl

theorem continuation_iff {byte : UInt8} : continuation byte = true ↔ 128 ≤ byte.toNat ∧ byte.toNat ≤ 191 := by
  simp only [continuation, Bool.and_eq_true, decide_eq_true_eq, UInt8.le_iff_toNat_le, UInt8.reduceToNat]

theorem secondOf_iff {lead second : UInt8} :
    secondOf lead second = true ↔
      (128 ≤ second.toNat ∧ second.toNat ≤ 191) ∧ (lead.toNat = 224 → 160 ≤ second.toNat) ∧
        (lead.toNat = 237 → second.toNat ≤ 159) ∧ (lead.toNat = 240 → 144 ≤ second.toNat) ∧
        (lead.toNat = 244 → second.toNat ≤ 143) := by
  simp only [secondOf, Bool.and_eq_true, Bool.or_eq_true, continuation_iff, bne_iff_ne, ne_eq,
    ← UInt8.toNat_inj, decide_eq_true_eq, UInt8.le_iff_toNat_le, UInt8.reduceToNat]
  omega

theorem encode_ofNat {n : Nat} (valid : n.isValidChar) :
    String.utf8EncodeChar (Char.ofNat n) =
      if n ≤ 127 then [UInt8.ofNat n]
      else if n ≤ 2047 then [UInt8.ofNat (n / 64 % 32 + 192), UInt8.ofNat (n % 64 + 128)]
      else if n ≤ 65535 then
        [UInt8.ofNat (n / 4096 % 16 + 224), UInt8.ofNat (n / 64 % 64 + 128), UInt8.ofNat (n % 64 + 128)]
      else
        [UInt8.ofNat (n / 262144 % 8 + 240), UInt8.ofNat (n / 4096 % 64 + 128),
          UInt8.ofNat (n / 64 % 64 + 128), UInt8.ofNat (n % 64 + 128)] := by
  unfold String.utf8EncodeChar
  dsimp only
  rw [val_ofNat valid]

/-- What is found at the front is the encoding of a character. -/
theorem encode_of_first {lead : UInt8} {rest : List UInt8} {c : Char} {len : Nat}
    (found : first lead rest = .char c len) : String.utf8EncodeChar c ++ (lead :: rest).drop len = lead :: rest := by
  have small : lead.toNat < 256 := lead.toNat_lt
  unfold first at found
  simp only [UInt8.lt_iff_toNat_lt, UInt8.le_iff_toNat_le, UInt8.reduceToNat] at found
  split_ifs at found with one two three four
  · obtain ⟨rfl, rfl⟩ := First.char.inj found
    rw [encode_ofNat (by simp only [Nat.isValidChar]; omega), if_pos (by omega), ofNat_eq rfl]
    rfl
  · split at found
    · cases found
    · rename_i b1 more
      have low1 := low_eq b1
      split_ifs at found with tail
      obtain ⟨rfl, rfl⟩ := First.char.inj found
      rw [continuation_iff] at tail
      rw [encode_ofNat (by simp only [Nat.isValidChar]; omega), if_neg (by omega), if_pos (by omega),
        ofNat_eq (by omega : _ = lead.toNat), ofNat_eq (by omega : _ = b1.toNat)]
      rfl
  · split at found
    · cases found
    · rename_i b1 more
      have low1 := low_eq b1
      split_ifs at found with second
      split at found
      · cases found
      · rename_i b2 more
        have low2 := low_eq b2
        split_ifs at found with tail
        obtain ⟨rfl, rfl⟩ := First.char.inj found
        rw [Bool.not_eq_true', Bool.not_eq_false, secondOf_iff] at second
        rw [continuation_iff] at tail
        rw [encode_ofNat (by simp only [Nat.isValidChar]; omega), if_neg (by omega), if_neg (by omega),
          if_pos (by omega), ofNat_eq (by omega : _ = lead.toNat), ofNat_eq (by omega : _ = b1.toNat),
          ofNat_eq (by omega : _ = b2.toNat)]
        rfl
  · split at found
    · cases found
    · rename_i b1 more
      have low1 := low_eq b1
      split_ifs at found with second
      split at found
      · cases found
      · rename_i b2 more
        have low2 := low_eq b2
        split_ifs at found with third
        split at found
        · cases found
        · rename_i b3 more
          have low3 := low_eq b3
          split_ifs at found with tail
          obtain ⟨rfl, rfl⟩ := First.char.inj found
          rw [Bool.not_eq_true', Bool.not_eq_false, secondOf_iff] at second
          rw [Bool.not_eq_true', Bool.not_eq_false, continuation_iff] at third
          rw [continuation_iff] at tail
          rw [encode_ofNat (by simp only [Nat.isValidChar]; omega), if_neg (by omega), if_neg (by omega),
            if_neg (by omega), ofNat_eq (by omega : _ = lead.toNat), ofNat_eq (by omega : _ = b1.toNat),
            ofNat_eq (by omega : _ = b2.toNat), ofNat_eq (by omega : _ = b3.toNat)]
          rfl

theorem encode_of_strict {fuel upTo : Nat} {bytes : List UInt8} {cs : List Char} (enough : bytes.length ≤ fuel)
    (decoded : strict fuel upTo bytes = .ok cs) : encode cs = bytes := by
  induction fuel generalizing upTo bytes cs with
  | zero =>
    rw [List.length_eq_zero_iff.1 (Nat.le_zero.1 enough)] at decoded ⊢
    rw [← Except.ok.inj decoded]
    rfl
  | succ fuel ih =>
    cases bytes with
    | nil =>
      rw [← Except.ok.inj decoded]
      rfl
    | cons lead rest =>
      rw [strict] at decoded
      cases found : first lead rest with
      | malformed len truncated => simp [found] at decoded
      | char c len =>
        have front := encode_of_first found
        have shorter := congrArg List.length front
        have some_ : 0 < (String.utf8EncodeChar c).length := List.length_pos_iff.2 (utf8EncodeChar_ne_nil c)
        rw [List.length_append] at shorter
        simp only [found] at decoded
        cases later : strict fuel (upTo + len) ((lead :: rest).drop len) with
        | error e => simp [later] at decoded
        | ok text =>
          rw [later] at decoded
          rw [← Except.ok.inj decoded, encode_cons, ih (by omega) later, front]

/-- A byte string reads as a text exactly where it is that text's encoding. -/
theorem fromUtf8_eq_ok {bytes : List UInt8} {cs : List Char} : fromUtf8 bytes = .ok cs ↔ encode cs = bytes := by
  constructor
  · intro decoded
    rw [fromUtf8] at decoded
    split at decoded
    · rename_i text read
      rw [← Except.ok.inj decoded]
      exact encode_of_strict (Nat.le_refl _) read
    · cases decoded
    · cases decoded
  · rintro rfl
    exact fromUtf8_encode cs

end

end SupraHarness.Str
