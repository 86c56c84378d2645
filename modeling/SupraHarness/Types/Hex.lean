import SupraHarness.Lib.Results
import SupraHarness.Lib.Utf8
import SupraHarness.Types.Hash

/-!
# Hashes from hexadecimal text

A digest is read back pair by pair, and each pair by the integer parser of the
standard library, which takes a plus sign in front of the digits. On a text
without such a pair the reader accepts exactly sixty-four hexadecimal digits,
and formatting what it read gives them back in lower case.
-/
namespace SupraHarness.Types

open SupraHarness.Utf8 SupraHarness.Results

inductive ParseHashError where
  | length (found : Nat)
  | notHex (offset : Nat)
  deriving DecidableEq, Repr

/-- `char::to_digit` with radix 16. -/
def toDigit (c : Char) : Option Nat :=
  if '0' ≤ c ∧ c ≤ '9' then some (c.toNat - 48)
  else if 'a' ≤ c ∧ c ≤ 'f' then some (c.toNat - 87)
  else if 'A' ≤ c ∧ c ≤ 'F' then some (c.toNat - 55)
  else none

/-- The digits of a `u8`, from what was read before them. -/
def u8Digits : Nat → List UInt8 → Option UInt8
  | value, [] => some (UInt8.ofNat value)
  | value, b :: bytes =>
    match toDigit (Char.ofNat b.toNat) with
    | none => none
    | some digit => if 256 ≤ 16 * value + digit then none else u8Digits (16 * value + digit) bytes

/-- `u8::from_str_radix` with radix 16: a plus sign may stand in front of the digits. -/
def u8FromStrRadix (bytes : List UInt8) : Option UInt8 :=
  match bytes with
  | [] => none
  | [b] => if b = 43 ∨ b = 45 then none else u8Digits 0 [b]
  | b :: rest => if b = 43 then u8Digits 0 rest else u8Digits 0 (b :: rest)

/-- `is_char_boundary` -/
def isCharBoundary (bytes : List UInt8) (index : Nat) : Bool :=
  index = 0 || index = bytes.length || (bytes[index]?).any fun b => !continuation b

/-- `get` with a range. -/
def getRange (bytes : List UInt8) (start stop : Nat) : Option (List UInt8) :=
  if start ≤ stop ∧ isCharBoundary bytes start ∧ isCharBoundary bytes stop then
    some ((bytes.drop start).take (stop - start))
  else none

/-- The byte of one pair. -/
def readPair (bytes : List UInt8) (index : Nat) : Except ParseHashError UInt8 :=
  let start := index * 2
  match (getRange bytes start (start + 2)).bind u8FromStrRadix with
  | some byte => .ok byte
  | none => .error (.notHex start)

/-- Read a digest of sixty-four characters. -/
def ContentHash.fromHex (text : Str) : Except ParseHashError ContentHash :=
  if text.len ≠ 64 then .error (.length text.len)
  else
    ((List.range 32).mapM (readPair text.bytes)).map fun read =>
      ⟨Vector.ofFn fun index => (read[index.val]?).getD 0⟩

/-! ## Pairs of characters -/

/-- What the reader takes two characters for. -/
def pairValue (a b : Char) : Option UInt8 :=
  match toDigit a, toDigit b with
  | some high, some low => some (UInt8.ofNat (16 * high + low))
  | none, some low => if a = '+' then some (UInt8.ofNat low) else none
  | _, none => none

/-- What the reader takes a text for, pair by pair. -/
def decode : List Char → Option (List UInt8)
  | [] => some []
  | [_] => none
  | a :: b :: cs => (pairValue a b).bind fun byte => (decode cs).map (byte :: ·)

theorem toDigit_ascii {c : Char} {digit : Nat} (h : toDigit c = some digit) : c.toNat < 0x80 ∧ digit < 16 := by
  simp only [toDigit, Char.le_def, UInt32.le_iff_toNat_le] at h
  have hval : c.toNat = c.val.toNat := rfl
  split_ifs at h <;> simp at * <;> omega

theorem pairValue_ascii {a b : Char} {byte : UInt8} (h : pairValue a b = some byte) :
    a.toNat < 0x80 ∧ b.toNat < 0x80 := by
  unfold pairValue at h
  split at h
  · rename_i high low ha hb
    exact ⟨(toDigit_ascii ha).1, (toDigit_ascii hb).1⟩
  · rename_i low ha hb
    split at h
    · rename_i hplus
      subst hplus
      exact ⟨by decide, (toDigit_ascii hb).1⟩
    · cases h
  · cases h

theorem toDigit_wide {c : Char} (h : 0x80 ≤ c.toNat) : toDigit c = none := by
  cases hdigit : toDigit c with
  | none => rfl
  | some digit =>
    have := (toDigit_ascii hdigit).1
    omega

theorem ofNat_toNat_ascii {c : Char} (h : c.toNat < 0x80) : Char.ofNat (UInt8.ofNat c.toNat).toNat = c := by
  rw [UInt8.toNat_ofNat', Nat.mod_eq_of_lt (by omega), Char.ofNat_toNat]

/-- Two bytes of ASCII are read as their characters. -/
theorem u8FromStrRadix_ascii {a b : Char} (ha : a.toNat < 0x80) (hb : b.toNat < 0x80) :
    u8FromStrRadix [UInt8.ofNat a.toNat, UInt8.ofNat b.toNat] = pairValue a b := by
  have hplus : UInt8.ofNat a.toNat = 43 ↔ a = '+' := by
    constructor
    · intro h
      rw [← ofNat_toNat_ascii ha, h]
      rfl
    · rintro rfl
      rfl
  simp only [u8FromStrRadix, u8Digits, ofNat_toNat_ascii ha, ofNat_toNat_ascii hb, hplus, pairValue]
  by_cases hsign : a = '+'
  · subst hsign
    have hnone : toDigit '+' = none := by decide
    rw [if_pos rfl, hnone]
    cases hdigit : toDigit b with
    | none => rfl
    | some low =>
      have := (toDigit_ascii hdigit).2
      simp only [Nat.mul_zero, Nat.zero_add]
      rw [if_neg (by omega), if_pos trivial]
  · rw [if_neg hsign]
    cases hhigh : toDigit a with
    | none =>
      cases hlow : toDigit b with
      | none => rfl
      | some low => exact (if_neg hsign).symm
    | some high =>
      have := (toDigit_ascii hhigh).2
      simp only [Nat.mul_zero, Nat.zero_add]
      rw [if_neg (by omega)]
      cases hlow : toDigit b with
      | none => rfl
      | some low =>
        have := (toDigit_ascii hlow).2
        exact if_neg (by omega)

/-- A pair with a byte that is not ASCII is no number. -/
theorem u8FromStrRadix_wide {x y : UInt8} (h : 0x80 ≤ x ∨ 0x80 ≤ y) : u8FromStrRadix [x, y] = none := by
  have hwide : ∀ z : UInt8, 0x80 ≤ z → toDigit (Char.ofNat z.toNat) = none := by
    intro z hz
    apply toDigit_wide
    have hlt := z.toNat_lt
    have hle := UInt8.le_iff_toNat_le.mp hz
    rw [Char.ofNat, dif_pos (Or.inl (by omega))]
    exact hle
  rcases h with hx | hy
  · have hne : x ≠ 43 := by
      rintro rfl
      exact absurd hx (by decide)
    simp only [u8FromStrRadix, if_neg hne, u8Digits, hwide x hx]
  · simp only [u8FromStrRadix, u8Digits, hwide y hy]
    split
    · rfl
    · split
      · rfl
      · split <;> rfl

/-! ## The reader reads pairs of characters -/

theorem Str.bytes_eq_encode (s : Str) : s.bytes = encode s.text.toList := by
  rw [Str.bytes, ← String.utf8Encode_toList]
  simp [List.utf8Encode, encode]

theorem of_getRange {front tail pair : List UInt8} {start : Nat} (hfront : front.length = start)
    (h : getRange (front ++ tail) start (start + 2) = some pair) : pair = tail.take 2 := by
  unfold getRange at h
  split at h
  · cases h
    rw [List.drop_left' hfront, Nat.add_sub_cancel_left]
  · cases h

theorem isCharBoundary_append {front tail : List UInt8} {index : Nat} (hfront : front.length = index)
    (h : startsWhole tail) : isCharBoundary (front ++ tail) index = true := by
  cases tail with
  | nil => simp [isCharBoundary, hfront]
  | cons byte tail =>
    have hbyte := h byte rfl
    simp [isCharBoundary, ← hfront, hbyte]

/-- A pair is read as the characters whose bytes it is. -/
theorem readPair_eq_ok {front : List UInt8} {cs : List Char} {k : Nat} (hfront : front.length = k * 2)
    (hlen : 2 ≤ (encode cs).length) {byte : UInt8} :
    readPair (front ++ encode cs) k = .ok byte ↔ ∃ a b rest, cs = a :: b :: rest ∧ pairValue a b = some byte := by
  have hread : readPair (front ++ encode cs) k = .ok byte ↔
      (getRange (front ++ encode cs) (k * 2) (k * 2 + 2)).bind u8FromStrRadix = some byte := by
    simp only [readPair]
    split
    · rename_i value hvalue
      rw [hvalue]
      exact ⟨fun h => congrArg some (Except.ok.inj h), fun h => congrArg Except.ok (Option.some.inj h)⟩
    · rename_i hnone
      rw [hnone]
      exact iff_of_false nofun nofun
  rw [hread]
  constructor
  · intro h
    obtain ⟨pair, hpair, hvalue⟩ := Option.bind_eq_some_iff.mp h
    obtain rfl := of_getRange hfront hpair
    cases cs with
    | nil => cases hvalue
    | cons a cs =>
      by_cases ha : a.toNat < 0x80
      · cases cs with
        | nil =>
          rw [encode_cons, utf8EncodeChar_ascii ha] at hlen
          simp at hlen
        | cons b rest =>
          rw [encode_cons, utf8EncodeChar_ascii ha, encode_cons] at hvalue
          by_cases hb : b.toNat < 0x80
          · rw [utf8EncodeChar_ascii hb] at hvalue
            exact ⟨a, b, rest, rfl, (u8FromStrRadix_ascii ha hb).symm.trans hvalue⟩
          · obtain ⟨lead, more, hshape, hlead⟩ := utf8EncodeChar_wide (Nat.not_lt.mp hb)
            rw [hshape] at hvalue
            cases (u8FromStrRadix_wide (Or.inr hlead)).symm.trans hvalue
      · obtain ⟨lead, more, hshape, hlead⟩ := utf8EncodeChar_wide (Nat.not_lt.mp ha)
        rw [encode_cons, hshape] at hlen hvalue
        cases htail : more ++ encode cs with
        | nil =>
          rw [List.cons_append, htail] at hlen
          simp at hlen
        | cons second others =>
          rw [List.cons_append, htail] at hvalue
          cases (u8FromStrRadix_wide (Or.inl hlead)).symm.trans hvalue
  · rintro ⟨a, b, rest, rfl, hvalue⟩
    obtain ⟨ha, hb⟩ := pairValue_ascii hvalue
    have hshape : encode (a :: b :: rest) = [UInt8.ofNat a.toNat, UInt8.ofNat b.toNat] ++ encode rest := by
      rw [encode_cons, encode_cons, utf8EncodeChar_ascii ha, utf8EncodeChar_ascii hb]
      rfl
    have hwhole := Valid.startsWhole ⟨a :: b :: rest, rfl⟩
    have hrest := Valid.startsWhole ⟨rest, rfl⟩
    have hstart := isCharBoundary_append hfront hwhole
    have hstop : isCharBoundary (front ++ encode (a :: b :: rest)) (k * 2 + 2) = true := by
      rw [hshape, ← List.append_assoc]
      apply isCharBoundary_append _ hrest
      rw [List.length_append, hfront]
      rfl
    rw [getRange, if_pos ⟨Nat.le_add_right _ _, hstart, hstop⟩, Option.bind_some, Nat.add_sub_cancel_left,
      List.drop_left' hfront, hshape]
    exact (u8FromStrRadix_ascii ha hb).trans hvalue

/-- The loop over the pairs reads what the characters stand for. -/
theorem mapM_readPair {n k : Nat} {front : List UInt8} {cs : List Char} (hfront : front.length = k * 2)
    (hlen : (encode cs).length = n * 2) (read : List UInt8) :
    (List.range' k n).mapM (readPair (front ++ encode cs)) = .ok read ↔ decode cs = some read := by
  induction n generalizing k front cs read with
  | zero =>
    rw [Nat.zero_mul, List.length_eq_zero_iff] at hlen
    cases cs with
    | nil =>
      rw [List.range'_zero, List.mapM_nil, decode]
      exact ⟨fun h => congrArg some (Except.ok.inj h), fun h => congrArg Except.ok (Option.some.inj h)⟩
    | cons c cs => exact absurd (List.append_eq_nil_iff.mp hlen).1 (utf8EncodeChar_ne_nil c)
  | succ n ih =>
    have hlong : 2 ≤ (encode cs).length := by omega
    rw [List.range'_succ, List.mapM_cons]
    simp only [bind_eq_ok]
    constructor
    · rintro ⟨byte, hbyte, others, hothers, hread⟩
      cases hread
      obtain ⟨a, b, rest, rfl, hvalue⟩ := (readPair_eq_ok hfront hlong).mp hbyte
      obtain ⟨ha, hb⟩ := pairValue_ascii hvalue
      rw [encode_cons, encode_cons, utf8EncodeChar_ascii ha, utf8EncodeChar_ascii hb, ← List.append_assoc,
        ← List.append_assoc] at hothers
      rw [encode_cons, encode_cons, utf8EncodeChar_ascii ha, utf8EncodeChar_ascii hb] at hlen
      rw [ih (by simp [hfront]; omega) (by simp at hlen; omega)] at hothers
      rw [decode, hvalue, hothers]
      rfl
    · intro h
      match cs, h with
      | [], _ => simp at hlen
      | a :: b :: rest, h =>
        rw [decode] at h
        obtain ⟨byte, hvalue, hmap⟩ := Option.bind_eq_some_iff.mp h
        obtain ⟨others, hothers, rfl⟩ := Option.map_eq_some_iff.mp hmap
        obtain ⟨ha, hb⟩ := pairValue_ascii hvalue
        refine ⟨byte, (readPair_eq_ok hfront hlong).mpr ⟨a, b, rest, rfl, hvalue⟩, others, ?_, rfl⟩
        rw [encode_cons, encode_cons, utf8EncodeChar_ascii ha, utf8EncodeChar_ascii hb] at hlen
        rw [encode_cons, encode_cons, utf8EncodeChar_ascii ha, utf8EncodeChar_ascii hb, ← List.append_assoc,
          ← List.append_assoc, ih (by simp [hfront]; omega) (by simp at hlen; omega)]
        exact hothers

theorem length_decode {cs : List Char} {read : List UInt8} (h : decode cs = some read) :
    (encode cs).length = 2 * read.length ∧ cs.length = 2 * read.length := by
  induction cs using decode.induct generalizing read with
  | case1 =>
    cases h
    exact ⟨rfl, rfl⟩
  | case2 a => cases h
  | case3 a b cs ih =>
    rw [decode] at h
    obtain ⟨byte, hvalue, hmap⟩ := Option.bind_eq_some_iff.mp h
    obtain ⟨others, hothers, rfl⟩ := Option.map_eq_some_iff.mp hmap
    obtain ⟨ha, hb⟩ := pairValue_ascii hvalue
    obtain ⟨hbytes, hchars⟩ := ih hothers
    rw [encode_cons, encode_cons, utf8EncodeChar_ascii ha, utf8EncodeChar_ascii hb]
    simp only [List.length_append, List.length_cons, List.length_nil]
    omega

theorem toList_slots {read : List UInt8} (h : read.length = 32) :
    (Vector.ofFn fun index : Fin 32 => (read[index.val]?).getD 0).toList = read := by
  apply List.ext_getElem
  · rw [Vector.length_toList, h]
  · intro i _ hi
    simp [hi]

/-- What is accepted is thirty-two pairs, and the digest is their bytes. -/
theorem fromHex_eq_ok {text : Str} {hash : ContentHash} :
    ContentHash.fromHex text = .ok hash ↔ decode text.text.toList = some hash.bytes.toList := by
  have hsize : text.len = (encode text.text.toList).length := by
    rw [← Str.bytes_eq_encode]
    simp [Str.len, Str.bytes]
  have hloop : text.bytes.length = 32 * 2 → ∀ read,
      (List.range 32).mapM (readPair text.bytes) = .ok read ↔ decode text.text.toList = some read := by
    intro hlen
    have h := @mapM_readPair 32 0 [] text.text.toList rfl (Str.bytes_eq_encode text ▸ hlen)
    rwa [List.nil_append, ← Str.bytes_eq_encode, ← List.range_eq_range'] at h
  unfold ContentHash.fromHex
  by_cases hlen : text.len = 64
  · rw [if_neg (not_not.mpr hlen)]
    have hloop := hloop ((congrArg List.length (Str.bytes_eq_encode text)).trans (hsize.symm.trans hlen))
    constructor
    · intro h
      cases hread : (List.range 32).mapM (readPair text.bytes) with
      | error e =>
        rw [hread] at h
        cases h
      | ok read =>
        rw [hread] at h
        have hhash := Except.ok.inj h
        have hdecode := (hloop read).mp hread
        have hlength := (length_decode hdecode).1
        rw [hdecode, ← hhash, toList_slots (by omega)]
    · intro h
      rw [(hloop _).mpr h]
      apply congrArg Except.ok
      apply ContentHash.ext
      apply Vector.toList_inj.mp
      exact toList_slots Vector.length_toList
  · rw [if_pos hlen]
    refine iff_of_false (by rintro ⟨⟩) ?_
    intro h
    have := (length_decode h).1
    rw [Vector.length_toList] at this
    omega

/-! ## Hexadecimal digits -/

def IsHex (c : Char) : Prop := (toDigit c).isSome = true

instance : DecidablePred IsHex := fun c => inferInstanceAs (Decidable ((toDigit c).isSome = true))

/-- Sixty-four hexadecimal digits. -/
structure HexText (text : Str) : Prop where
  length : text.text.toList.length = 64
  digits : ∀ c ∈ text.text.toList, IsHex c

/-- Pairs of two digits, or of a plus sign and one digit. -/
def Readable : List Char → Prop
  | [] => True
  | [_] => False
  | a :: b :: cs => (IsHex a ∨ a = '+') ∧ IsHex b ∧ Readable cs

/-- A text of the right length with a plus sign where the integer parser takes one. -/
structure Signed (text : Str) : Prop where
  length : text.text.toList.length = 64
  sign : '+' ∈ text.text.toList
  pairs : Readable text.text.toList

def lowerCase (cs : List Char) : List Char := cs.map Char.toLower

/-- The digits of some bytes, as `Display` writes them. -/
def digitsOf (bytes : List UInt8) : List Char :=
  bytes.flatMap fun byte => [hexDigit (byte.toNat / 16), hexDigit (byte.toNat % 16)]

theorem hexDigit_toDigit {c : Char} {digit : Nat} (h : toDigit c = some digit) : hexDigit digit = c.toLower := by
  have hascii := (toDigit_ascii h).1
  have hall : ∀ n < 128, ∀ digit ∈ toDigit (Char.ofNat n), hexDigit digit = (Char.ofNat n).toLower := by decide
  have hc := hall c.toNat hascii digit
  rw [Char.ofNat_toNat] at hc
  exact hc h

theorem isSome_pairValue {a b : Char} : (pairValue a b).isSome = true ↔ (IsHex a ∨ a = '+') ∧ IsHex b := by
  unfold pairValue IsHex
  cases toDigit a with
  | none =>
    cases toDigit b with
    | none => simp
    | some low => by_cases ha : a = '+' <;> simp [ha]
  | some high => cases toDigit b <;> simp

theorem isSome_decode {cs : List Char} : (decode cs).isSome = true ↔ Readable cs := by
  induction cs using decode.induct with
  | case1 => exact iff_of_true rfl trivial
  | case2 a => exact iff_of_false nofun id
  | case3 a b cs ih =>
    rw [decode, Readable, ← and_assoc, ← isSome_pairValue, ← ih]
    cases pairValue a b with
    | none => simp
    | some byte => cases decode cs <;> simp

/-- Formatting what two digits are read as. -/
theorem digitsOf_pair {a b : Char} (ha : IsHex a) (hb : IsHex b) {byte : UInt8} (h : pairValue a b = some byte) :
    digitsOf [byte] = [a.toLower, b.toLower] := by
  obtain ⟨high, hhigh⟩ := Option.isSome_iff_exists.mp ha
  obtain ⟨low, hlow⟩ := Option.isSome_iff_exists.mp hb
  have hhigh' := (toDigit_ascii hhigh).2
  have hlow' := (toDigit_ascii hlow).2
  simp only [pairValue, hhigh, hlow] at h
  cases h
  have hnat : (UInt8.ofNat (16 * high + low)).toNat = 16 * high + low := by
    rw [UInt8.toNat_ofNat', Nat.mod_eq_of_lt (by omega)]
  have hdiv : (16 * high + low) / 16 = high := by omega
  have hmod : (16 * high + low) % 16 = low := by omega
  simp only [digitsOf, List.flatMap_cons, List.flatMap_nil, List.append_nil, hnat, hdiv, hmod]
  rw [hexDigit_toDigit hhigh, hexDigit_toDigit hlow]

theorem digitsOf_decode {cs : List Char} (hcs : ∀ c ∈ cs, IsHex c) {read : List UInt8}
    (h : decode cs = some read) : digitsOf read = lowerCase cs := by
  induction cs using decode.induct generalizing read with
  | case1 =>
    cases h
    rfl
  | case2 a => cases h
  | case3 a b cs ih =>
    rw [decode] at h
    obtain ⟨byte, hvalue, hmap⟩ := Option.bind_eq_some_iff.mp h
    obtain ⟨others, hothers, rfl⟩ := Option.map_eq_some_iff.mp hmap
    have hpair := digitsOf_pair (hcs a List.mem_cons_self) (hcs b (List.mem_cons_of_mem _ List.mem_cons_self)) hvalue
    have hrest := ih (fun c hc => hcs c (List.mem_cons_of_mem _ (List.mem_cons_of_mem _ hc))) hothers
    have hsplit : digitsOf (byte :: others) = digitsOf [byte] ++ digitsOf others := by
      rw [digitsOf, digitsOf, digitsOf, ← List.flatMap_append, List.singleton_append]
    rw [hsplit, hpair, hrest]
    rfl

/-- Without a plus sign a readable text is one of digits. -/
theorem digits_of_readable {cs : List Char} (h : Readable cs) (hsign : '+' ∉ cs) : ∀ c ∈ cs, IsHex c := by
  induction cs using decode.induct with
  | case1 => nofun
  | case2 a => exact h.elim
  | case3 a b cs ih =>
    simp only [List.mem_cons, not_or] at hsign
    obtain ⟨ha, hb, hrest⟩ := h
    simp only [List.mem_cons]
    rintro c (rfl | rfl | hc)
    · exact ha.resolve_right fun heq => hsign.1 heq.symm
    · exact hb
    · exact ih hrest hsign.2.2 c hc

theorem readable_of_digits {cs : List Char} (h : ∀ c ∈ cs, IsHex c) (heven : cs.length % 2 = 0) : Readable cs := by
  induction cs using decode.induct with
  | case1 => trivial
  | case2 a => simp at heven
  | case3 a b cs ih =>
    refine ⟨Or.inl (h a List.mem_cons_self), h b (List.mem_cons_of_mem _ List.mem_cons_self), ?_⟩
    apply ih fun c hc => h c (List.mem_cons_of_mem _ (List.mem_cons_of_mem _ hc))
    simp only [List.length_cons] at heven
    omega

theorem isHex_plus : ¬ IsHex '+' := by decide

/-! ## Reading and formatting -/

namespace ContentHash

/-- Accepted are readable texts of the right length. -/
theorem accepts_iff (text : Str) : (∃ hash, fromHex text = .ok hash) ↔
    text.text.toList.length = 64 ∧ Readable text.text.toList := by
  rw [← isSome_decode, Option.isSome_iff_exists]
  constructor
  · rintro ⟨hash, hread⟩
    rw [fromHex_eq_ok] at hread
    refine ⟨?_, _, hread⟩
    rw [(length_decode hread).2, Vector.length_toList]
  · rintro ⟨hlength, read, hread⟩
    have := (length_decode hread).2
    refine ⟨⟨Vector.ofFn fun index => (read[index.val]?).getD 0⟩, ?_⟩
    rw [fromHex_eq_ok, toList_slots (by omega)]
    exact hread

/-- The reader takes sixty-four digits and nothing else, and formatting gives them back in lower case. -/
structure Exact (text : Str) : Prop where
  accepts : (∃ hash, fromHex text = .ok hash) ↔ HexText text
  formats : ∀ hash, fromHex text = .ok hash → hash.text.toList = lowerCase text.text.toList

/-- Different lower-case texts are not read as one hash. -/
def Apart (text other : Str) : Prop :=
  lowerCase text.text.toList = text.text.toList → lowerCase other.text.toList = other.text.toList →
    ∀ hash, fromHex text = .ok hash → fromHex other = .ok hash → text = other

theorem exact_iff (text : Str) : Exact text ↔ ¬ Signed text := by
  constructor
  · intro h hsigned
    have hhex := h.accepts.mp ((accepts_iff text).mpr ⟨hsigned.length, hsigned.pairs⟩)
    exact isHex_plus (hhex.digits _ hsigned.sign)
  · intro h
    have hdigits : ∀ hash, fromHex text = .ok hash → HexText text := by
      intro hash hread
      obtain ⟨hlength, hpairs⟩ := (accepts_iff text).mp ⟨hash, hread⟩
      have hsign : '+' ∉ text.text.toList := fun hmem => h ⟨hlength, hmem, hpairs⟩
      exact ⟨hlength, digits_of_readable hpairs hsign⟩
    refine ⟨⟨?_, ?_⟩, ?_⟩
    · rintro ⟨hash, hread⟩
      exact hdigits hash hread
    · intro hhex
      exact (accepts_iff text).mpr ⟨hhex.length, readable_of_digits hhex.digits (by rw [hhex.length])⟩
    · intro hash hread
      have hformat := digitsOf_decode (hdigits hash hread).digits (fromHex_eq_ok.mp hread)
      rw [ContentHash.text, String.toList_ofList]
      exact hformat

/-- On two texts the reader does what it says exactly when neither holds a sign that the parser takes. -/
theorem fromHex_exact_iff (text other : Str) :
    Exact text ∧ Exact other ∧ Apart text other ↔ ¬ Signed text ∧ ¬ Signed other := by
  constructor
  · rintro ⟨htext, hother, -⟩
    exact ⟨(exact_iff text).mp htext, (exact_iff other).mp hother⟩
  · rintro ⟨htext, hother⟩
    have hexact := (exact_iff text).mpr htext
    have hexact' := (exact_iff other).mpr hother
    refine ⟨hexact, hexact', ?_⟩
    intro hlower hlower' hash hread hread'
    have hformat := hexact.formats hash hread
    rw [hexact'.formats hash hread', hlower, hlower'] at hformat
    exact Str.ext (String.toList_inj.mp hformat.symm)

/-- Thirty-two times a sign and a digit. -/
def plusText : Str := ⟨String.ofList (List.replicate 32 ['+', 'f']).flatten, by decide⟩

/-- The hash of thirty-two bytes of fifteen is read from signs. -/
theorem fromHex_takes_signs :
    (∃ hash, fromHex plusText = .ok hash) ∧ ¬ HexText plusText ∧
      ∃ hash, fromHex plusText = .ok hash ∧ hash.text.toList ≠ lowerCase plusText.text.toList := by
  have hchars : plusText.text.toList = (List.replicate 32 ['+', 'f']).flatten := String.toList_ofList
  have hread : fromHex plusText = .ok ⟨Vector.replicate 32 15⟩ := by
    rw [fromHex_eq_ok, hchars]
    decide
  refine ⟨⟨_, hread⟩, ?_, _, hread, ?_⟩
  · intro h
    have hdigits := h.digits
    rw [hchars] at hdigits
    exact isHex_plus (hdigits '+' (by decide))
  · rw [hchars, ContentHash.text, String.toList_ofList]
    decide

end ContentHash

end SupraHarness.Types
