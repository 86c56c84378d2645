import Mathlib.Data.List.TakeWhile
import SupraHarness.Lib.Positions
import SupraHarness.Lib.Scan

/-!
# Slices of a text

A text is cut at an offset in bytes, which has to be a boundary between characters: any other offset, and one past the
end, is refused. Searches tell offsets in bytes, and a run over the bytes of a text that stops at ASCII bytes ends at a
boundary.
-/
namespace SupraHarness.Slices

open Utf8 Positions Str

/-- What stands in front of an offset and behind it. -/
def split : List Char → Nat → Option (List Char × List Char)
  | text, 0 => some ([], text)
  | [], _ + 1 => none
  | c :: text, index + 1 =>
    if index + 1 < c.utf8Size then none
    else (split text (index + 1 - c.utf8Size)).map fun parts => (c :: parts.1, parts.2)

/-- `str::is_char_boundary`: the byte at the offset, if it is not the end, goes on no character. -/
def isCharBoundary (text : List Char) (index : Nat) : Bool :=
  decide (index ≤ (encode text).length) && !((encode text)[index]?).any continuation

/-- `&text[index..]` -/
def sliceFrom (text : List Char) (index : Nat) : Option (List Char) := (split text index).map Prod.snd

/-- `&text[..index]` -/
def sliceTo (text : List Char) (index : Nat) : Option (List Char) := (split text index).map Prod.fst

/-- `str::get` with a range. -/
def get (text : List Char) (start stop : Nat) : Option (List Char) :=
  if start ≤ stop then (sliceTo text stop).bind fun front => sliceFrom front start else none

/-- `str::find`: the offset of the first occurrence. -/
def find (pattern : List Char) : List Char → Option Nat
  | [] => if pattern.isPrefixOf [] then some 0 else none
  | c :: text => if pattern.isPrefixOf (c :: text) then some 0 else (find pattern text).map (· + c.utf8Size)

/-- The offset stands between two parts of the text. -/
def Boundary (text : List Char) (index : Nat) : Prop := ∃ front back, text = front ++ back ∧ index = size front

theorem split_size (front back : List Char) : split (front ++ back) (size front) = some (front, back) := by
  induction front with
  | nil => cases back <;> rfl
  | cons c front ih =>
    obtain ⟨index, long⟩ : ∃ index, size (c :: front) = index + 1 :=
      ⟨size (c :: front) - 1, by have := c.utf8Size_pos; rw [size_cons]; omega⟩
    have left : index + 1 - c.utf8Size = size front := by
      rw [← long, size_cons, Nat.add_sub_cancel_left]
    have room : ¬ index + 1 < c.utf8Size := by
      rw [← long, size_cons]
      omega
    rw [long, List.cons_append, split, if_neg room, left, ih]
    rfl

theorem split_eq_some_iff {text front back : List Char} {index : Nat} :
    split text index = some (front, back) ↔ text = front ++ back ∧ index = size front := by
  constructor
  · intro h
    induction text generalizing index front with
    | nil =>
      cases index with
      | zero => cases h; exact ⟨rfl, rfl⟩
      | succ index => cases h
    | cons c text ih =>
      cases index with
      | zero => cases h; exact ⟨rfl, rfl⟩
      | succ index =>
        rw [split] at h
        split at h
        · cases h
        · rename_i room
          obtain ⟨⟨front, back⟩, parts, eq⟩ := Option.map_eq_some_iff.1 h
          cases eq
          obtain ⟨rfl, left⟩ := ih parts
          exact ⟨rfl, by rw [size_cons, ← left]; omega⟩
  · rintro ⟨rfl, rfl⟩
    exact split_size front back

/-- The end is a boundary, and so is the offset of every byte that goes on no character. -/
theorem boundary_of_startsWhole {text : List Char} {index : Nat} (le : index ≤ (encode text).length)
    (whole : startsWhole ((encode text).drop index)) : Boundary text index := by
  induction text generalizing index with
  | nil => exact ⟨[], [], rfl, Nat.le_zero.1 le⟩
  | cons c text ih =>
    by_cases zero : index = 0
    · exact ⟨[], c :: text, rfl, zero⟩
    · obtain ⟨lead, rest, shape, -, more⟩ := utf8EncodeChar_shape c
      have size_c : c.utf8Size = rest.length + 1 := by
        rw [← String.length_utf8EncodeChar, shape, List.length_cons]
      by_cases inside : index < c.utf8Size
      · exfalso
        obtain ⟨k, rfl⟩ := Nat.exists_eq_succ_of_ne_zero zero
        have short : k < rest.length := by omega
        rw [encode_cons, shape, List.cons_append, List.drop_succ_cons, List.drop_append_of_le_length (by omega),
          List.drop_eq_getElem_cons short] at whole
        have stops := whole rest[k] rfl
        rw [more _ (List.getElem_mem short)] at stops
        cases stops
      · rw [encode_cons, List.length_append, String.length_utf8EncodeChar] at le
        have behind : index = (String.utf8EncodeChar c).length + (index - c.utf8Size) := by
          rw [String.length_utf8EncodeChar]
          omega
        rw [encode_cons, behind, List.drop_length_add_append] at whole
        obtain ⟨front, back, rfl, left⟩ := ih (by omega) whole
        exact ⟨c :: front, back, rfl, by rw [size_cons, ← left]; omega⟩

theorem isCharBoundary_iff {text : List Char} {index : Nat} : isCharBoundary text index = true ↔ Boundary text index := by
  rw [isCharBoundary, Bool.and_eq_true, decide_eq_true_eq, Bool.not_eq_true', Option.any_eq_false, ← List.head?_drop]
  constructor
  · rintro ⟨le, whole⟩
    exact boundary_of_startsWhole le fun byte mem => by simpa using whole byte mem
  · rintro ⟨front, back, rfl, rfl⟩
    rw [size, encode_append, List.drop_left]
    refine ⟨by rw [List.length_append]; omega, fun byte mem => ?_⟩
    simpa using (show Valid (encode back) from ⟨back, rfl⟩).startsWhole byte mem

theorem sliceFrom_size (front back : List Char) : sliceFrom (front ++ back) (size front) = some back := by
  rw [sliceFrom, split_size, Option.map_some]

theorem sliceTo_size (front back : List Char) : sliceTo (front ++ back) (size front) = some front := by
  rw [sliceTo, split_size, Option.map_some]

theorem get_size (front middle back : List Char) :
    get (front ++ (middle ++ back)) (size front) (size front + size middle) = some middle := by
  rw [get, if_pos (Nat.le_add_right _ _), ← size_append, ← List.append_assoc, sliceTo_size, Option.bind_some,
    sliceFrom_size]

/-- In the middle of a character there is no boundary. -/
theorem not_boundary_inside {front back : List Char} {c : Char} {index : Nat} (pos : 0 < index)
    (inside : index < c.utf8Size) : ¬ Boundary (front ++ c :: back) (size front + index) := by
  rintro ⟨front', back', parts, eq⟩
  rcases List.append_eq_append_iff.1 parts with ⟨more, rfl, rest⟩ | ⟨more, rfl, rest⟩
  · rw [size_append] at eq
    cases more with
    | nil =>
      rw [size_nil] at eq
      omega
    | cons d more =>
      rw [List.cons_append, List.cons.injEq] at rest
      rw [size_cons, ← rest.1] at eq
      omega
  · rw [size_append] at eq
    omega

theorem find_eq (pattern text : List Char) :
    find pattern text = (Scan.find pattern text).map fun count => size (text.take count) := by
  induction text with
  | nil =>
    rw [find, Scan.find]
    split <;> rfl
  | cons c text ih =>
    rw [find, Scan.find]
    split
    · rfl
    · rw [ih, Option.map_map, Option.map_map]
      refine congrArg (Option.map · (Scan.find pattern text)) (funext fun count => ?_)
      rw [Function.comp_apply, Function.comp_apply, List.take_succ_cons, size_cons, Nat.add_comm]

/-- An occurrence splits the text, for a search by offsets as for one by characters. -/
theorem find_cases (pattern text : List Char) :
    find pattern text = none ∧ Scan.find pattern text = none ∨
      ∃ front back, text = front ++ (pattern ++ back) ∧ find pattern text = some (size front) ∧
        Scan.find pattern text = some front.length := by
  rw [find_eq]
  cases found : Scan.find pattern text with
  | none => exact .inl ⟨rfl, rfl⟩
  | some count =>
    obtain ⟨back, starts⟩ := Scan.find_starts found
    have within := Scan.find_bound found
    refine .inr ⟨text.take count, back, by rw [starts, List.take_append_drop], rfl, ?_⟩
    rw [List.length_take_of_le (by omega)]

/-! ## Runs of bytes -/

/-- A test of bytes that tells ASCII characters apart as a test of characters does, and no others. -/
structure Agrees (p : UInt8 → Bool) (q : Char → Bool) (others : Bool) : Prop where
  ascii : ∀ n < 128, p (UInt8.ofNat n) = q (Char.ofNat n)
  wideByte : ∀ n < 256, 128 ≤ n → p (UInt8.ofNat n) = others
  wideChar : ∀ c : Char, 128 ≤ c.toNat → q c = others

/-- What there is to see of an agreement on the single bytes. -/
def OnBytes (p : UInt8 → Bool) (q : Char → Bool) (others : Bool) : Prop :=
  (∀ n < 128, p (UInt8.ofNat n) = q (Char.ofNat n)) ∧ ∀ n < 256, 128 ≤ n → p (UInt8.ofNat n) = others

instance (p : UInt8 → Bool) (q : Char → Bool) (others : Bool) : Decidable (OnBytes p q others) :=
  inferInstanceAs (Decidable (_ ∧ _))

theorem OnBytes.agrees {p : UInt8 → Bool} {q : Char → Bool} {others : Bool} (h : OnBytes p q others)
    (wide : ∀ c : Char, 128 ≤ c.toNat → q c = others) : Agrees p q others :=
  ⟨h.1, h.2, wide⟩

theorem wide_bytes {c : Char} (h : 128 ≤ c.toNat) : ∀ byte ∈ String.utf8EncodeChar c, 128 ≤ byte.toNat := by
  obtain ⟨lead, rest, shape, -, more⟩ := utf8EncodeChar_shape c
  obtain ⟨lead', rest', shape', high⟩ := utf8EncodeChar_wide h
  rw [shape, List.cons.injEq] at shape'
  rw [shape, List.forall_mem_cons]
  refine ⟨shape'.1 ▸ UInt8.le_iff_toNat_le.1 high, fun byte mem => ?_⟩
  have goes := more byte mem
  rw [continuation, Bool.and_eq_true, decide_eq_true_eq] at goes
  exact UInt8.le_iff_toNat_le.1 goes.1

/-- Every byte of a character answers as the character does. -/
theorem Agrees.bytes {p : UInt8 → Bool} {q : Char → Bool} {others : Bool} (h : Agrees p q others) (c : Char) :
    ∀ byte ∈ String.utf8EncodeChar c, p byte = q c := by
  by_cases ascii : c.toNat < 128
  · rw [utf8EncodeChar_ascii ascii, List.forall_mem_singleton, h.ascii _ ascii, Char.ofNat_toNat]
  · intro byte mem
    have high := wide_bytes (Nat.not_lt.1 ascii) byte mem
    have wide := h.wideByte byte.toNat byte.toNat_lt high
    rw [UInt8.ofNat_toNat] at wide
    rw [wide, h.wideChar c (Nat.not_lt.1 ascii)]

/-- A run of bytes is a run of characters. -/
theorem Agrees.takeWhile {p : UInt8 → Bool} {q : Char → Bool} {others : Bool} (h : Agrees p q others)
    (text : List Char) : (encode text).takeWhile p = encode (text.takeWhile q) := by
  induction text with
  | nil => rfl
  | cons c text ih =>
    have all := h.bytes c
    rw [encode_cons]
    cases answer : q c with
    | true =>
      rw [List.takeWhile_append_of_pos fun byte mem => (all byte mem).trans answer, ih, List.takeWhile_cons_of_pos answer,
        encode_cons]
    | false =>
      obtain ⟨lead, rest, shape, -⟩ := utf8EncodeChar_shape c
      have stops : p lead = false := (all lead (by simp [shape])).trans answer
      rw [shape, List.cons_append, List.takeWhile_cons_of_neg (by simp [stops]),
        List.takeWhile_cons_of_neg (by simp [answer]), encode_nil]

/-- The last byte of a text answers as its last character does. -/
theorem Agrees.last {p : UInt8 → Bool} {q : Char → Bool} {others : Bool} (h : Agrees p q others) (front : List Char)
    (c : Char) : ∃ byte, (encode (front ++ [c])).getLast? = some byte ∧ p byte = q c := by
  obtain ⟨lead, rest, shape, -⟩ := utf8EncodeChar_shape c
  have nonempty : String.utf8EncodeChar c ≠ [] := by simp [shape]
  refine ⟨(String.utf8EncodeChar c).getLast nonempty, ?_, h.bytes c _ (List.getLast_mem nonempty)⟩
  rw [encode_append, encode_cons, encode_nil, List.append_nil, List.getLast?_append_of_ne_nil _ nonempty,
    List.getLast?_eq_some_getLast nonempty]

end SupraHarness.Slices
