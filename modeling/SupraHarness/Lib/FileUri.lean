import SupraHarness.Lib.Utf8

/-!
# The URIs of local files

A local file is named by the scheme `file`, no authority or that of the local host, and a path in which a percent sign
and two hexadecimal digits stand for a byte. Scheme and host are the same in both cases.
-/
namespace SupraHarness.FileUri

open Utf8

abbrev Text := List Char

/-- The name of a file. -/
abbrev Name := List UInt8

def hexValue (c : Char) : Option Nat :=
  if '0' ≤ c ∧ c ≤ '9' then some (c.toNat - 48)
  else if 'a' ≤ c ∧ c ≤ 'f' then some (c.toNat - 87)
  else if 'A' ≤ c ∧ c ≤ 'F' then some (c.toNat - 55)
  else none

def hexByte (high low : Char) : Option UInt8 :=
  (hexValue high).bind fun high => (hexValue low).map fun low => UInt8.ofNat (high * 16 + low)

/-- The bytes a text stands for; nothing where a percent sign has no two digits behind it. -/
def percentDecode : Text → Option Name
  | [] => some []
  | '%' :: high :: low :: rest => (hexByte high low).bind fun byte => (percentDecode rest).map (byte :: ·)
  | c :: rest => if c = '%' then none else (percentDecode rest).map (String.utf8EncodeChar c ++ ·)

/-- What stands behind a mark of small letters, whatever the case it is written in. -/
def dropFold (mark text : Text) : Option Text :=
  if (text.take mark.length).map Char.toLower = mark then some (text.drop mark.length) else none

/-- The path behind the scheme and the authority. -/
def pathBehind : Text → Option Text
  | '/' :: '/' :: rest => if rest.head? = some '/' then some rest else dropFold "localhost".toList rest
  | hier => some hier

/-- The path of a URI. -/
def pathOf (uri : Text) : Option Text :=
  ((dropFold "file:".toList uri).bind pathBehind).filter fun path => path.head? = some '/' ∧ '?' ∉ path ∧ '#' ∉ path

/-- The file that a URI denotes. -/
def fileOf (uri : Text) : Option Name := (pathOf uri).bind percentDecode

theorem percentDecode_cons {c : Char} (other : c ≠ '%') (rest : Text) :
    percentDecode (c :: rest) = (percentDecode rest).map (String.utf8EncodeChar c ++ ·) := by
  rw [percentDecode.eq_3 _ _ fun _ _ _ sign => absurd sign other, if_neg other]

theorem percentDecode_plain {text : Text} (plain : '%' ∉ text) : percentDecode text = some (encode text) := by
  induction text with
  | nil => rfl
  | cons c rest ih =>
    obtain ⟨here, others⟩ := not_or.1 fun mem => plain (List.mem_cons.2 mem)
    rw [percentDecode_cons (Ne.symm here), ih others, encode_cons]
    rfl

theorem length_encode_cons (c : Char) (rest : Text) : (encode (c :: rest)).length = c.utf8Size + (encode rest).length := by
  rw [encode_cons, List.length_append, String.length_utf8EncodeChar]

/-- Decoding takes bytes off, and some where there is anything to decode. -/
theorem length_percentDecode {text : Text} {bytes : Name} (h : percentDecode text = some bytes) :
    bytes.length ≤ (encode text).length ∧ ('%' ∈ text → bytes.length < (encode text).length) := by
  induction text using percentDecode.induct generalizing bytes with
  | case1 =>
    cases h
    exact ⟨Nat.le_refl _, nofun⟩
  | case2 high low rest ih =>
    rw [percentDecode] at h
    obtain ⟨byte, _, h⟩ := Option.bind_eq_some_iff.1 h
    obtain ⟨others, found, rfl⟩ := Option.map_eq_some_iff.1 h
    have le := (ih found).1
    have shorter : others.length + 1 < (encode ('%' :: high :: low :: rest)).length := by
      have wide := high.utf8Size_pos
      rw [length_encode_cons, length_encode_cons]
      have sign : '%'.utf8Size = 1 := rfl
      rw [length_encode_cons]
      omega
    exact ⟨Nat.le_of_lt shorter, fun _ => shorter⟩
  | case3 rest other =>
    rw [percentDecode.eq_3 _ _ other, if_pos rfl] at h
    cases h
  | case4 c rest other sign ih =>
    rw [percentDecode_cons sign] at h
    obtain ⟨others, found, rfl⟩ := Option.map_eq_some_iff.1 h
    obtain ⟨le, less⟩ := ih found
    rw [length_encode_cons, List.length_append, String.length_utf8EncodeChar]
    refine ⟨by omega, fun mem => ?_⟩
    have shorter := less ((List.mem_cons.1 mem).resolve_left (Ne.symm sign))
    omega

/-- Of the URIs that begin with the scheme in small letters and two slashes, those with no authority and nothing to decode
denote just what stands behind. -/
theorem fileOf_eq {rest : Text} {file : Name} (h : fileOf ("file://".toList ++ rest) = some file) :
    file = encode rest ↔ rest.head? = some '/' ∧ '%' ∉ rest := by
  have scheme : dropFold "file:".toList ("file://".toList ++ rest) = some ('/' :: '/' :: rest) := rfl
  obtain ⟨path, found, decoded⟩ := Option.bind_eq_some_iff.1 h
  rw [pathOf, scheme, Option.bind_some, pathBehind, Option.filter_eq_some_iff] at found
  obtain ⟨found, -⟩ := found
  obtain ⟨le, less⟩ := length_percentDecode decoded
  split_ifs at found with rooted
  · cases found
    constructor
    · rintro rfl
      exact ⟨rooted, fun sign => Nat.lt_irrefl _ (less sign)⟩
    · rintro ⟨-, plain⟩
      rw [percentDecode_plain plain] at decoded
      exact (Option.some.inj decoded).symm
  · refine ⟨?_, fun both => absurd both.1 rooted⟩
    rintro rfl
    rw [dropFold] at found
    split_ifs at found with host
    cases found
    have whole : (encode rest).length = (encode (rest.take "localhost".toList.length)).length +
        (encode (rest.drop "localhost".toList.length)).length := by
      rw [← List.length_append, ← encode_append, List.take_append_drop]
    cases front : rest.take "localhost".toList.length with
    | nil =>
      rw [front] at host
      exact absurd host (by decide)
    | cons c more =>
      have wide := c.utf8Size_pos
      rw [front, length_encode_cons] at whole
      omega

end SupraHarness.FileUri
