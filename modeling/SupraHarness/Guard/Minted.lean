import SupraHarness.Guard.Layers
import SupraHarness.Lib.Scan
import SupraHarness.Types.Hex

/-!
# Minted markers

What a process mints and what it accepts. Accepted are exactly the texts of three fields of which the
first is the version, the second thirty-two hexadecimal digits, and the third spells in such digits the
tag of the first two under the key that is held.
-/
namespace SupraHarness.Guard

open Types (IsHex hexDigit toDigit)

abbrev Hmac := List UInt8 → List UInt8 → List UInt8

/-- Lowercase hex. -/
def hex (bytes : List UInt8) : Text :=
  bytes.flatMap fun (byte : UInt8) => [hexDigit (byte >>> 4).toNat, hexDigit (byte &&& 0x0F).toNat]

/-- HMAC-SHA256, hex-encoded. -/
def tag (hmac : Hmac) (key : Key) (body : List UInt8) : Text := hex (hmac key.bytes body)

/-- Sixteen bytes from the operating system. -/
structure Nonce where
  bytes : List UInt8
  size : bytes.length = 16

/-- The operating system refuses bytes. -/
structure NoEntropy where
  place : String

/-- Mint a marker for a child process; without a key there is none. -/
def issue (hmac : Hmac) (key : Option Key) (fill : Option Nonce) : Except NoEntropy (Option Text) :=
  match key with
  | none => .ok none
  | some key =>
    match fill with
    | none => .error ⟨"marker issuance"⟩
    | some nonce =>
      let body := markerVersion ++ ':' :: hex nonce.bytes
      .ok (some (body ++ ':' :: tag hmac key (Utf8.encode body)))

/-! ## What is accepted -/

/-- A text spells bytes, two digits for each. -/
inductive HexOf : Text → List UInt8 → Prop where
  | nil : HexOf [] []
  | cons {a b : Char} {high low : Nat} {text : Text} {bytes : List UInt8} (first : toDigit a = some high)
      (second : toDigit b = some low) (rest : HexOf text bytes) :
      HexOf (a :: b :: text) (UInt8.ofNat (16 * high + low) :: bytes)

/-- A marker with a tag that authenticates it under a key. -/
def Authentic (hmac : Hmac) (key : Key) (marker : Text) : Prop :=
  ∃ nonce tag, marker = '1' :: ':' :: nonce ++ ':' :: tag ∧ nonce.length = 32 ∧ (∀ c ∈ nonce, IsHex c) ∧
    HexOf tag (hmac key.bytes (Utf8.encode ('1' :: ':' :: nonce)))

theorem cut_eq_some {text front after : Text} :
    cut text = some (front, after) ↔ text = front ++ ':' :: after ∧ ':' ∉ front := by
  have whole : text.takeWhile (· ≠ ':') ++ text.dropWhile (· ≠ ':') = text := List.takeWhile_append_dropWhile
  have colonless : ':' ∉ text.takeWhile (· ≠ ':') := fun mem => by simpa using List.mem_takeWhile_imp mem
  rw [cut, List.span_eq_takeWhile_dropWhile]
  cases rest : text.dropWhile (· ≠ ':') with
  | nil =>
    rw [rest, List.append_nil] at whole
    refine iff_of_false nofun ?_
    rintro ⟨equal, -⟩
    rw [whole] at colonless
    exact colonless (by simp [equal])
  | cons colon tail =>
    have isColon : colon = ':' := by
      have stops := List.head?_dropWhile_not (fun c => decide (c ≠ ':')) text
      rw [rest] at stops
      simpa using stops
    subst isColon
    rw [rest] at whole
    simp only [Option.some.injEq, Prod.mk.injEq]
    constructor
    · rintro ⟨rfl, rfl⟩
      exact ⟨whole.symm, colonless⟩
    · rintro ⟨equal, absent⟩
      exact Scan.before_unique colonless absent (whole.trans equal)

theorem split_eq_some {marker version nonce tag : Text} :
    split marker = some (version, nonce, tag) ↔
      marker = version ++ ':' :: (nonce ++ ':' :: tag) ∧ ':' ∉ version ∧ ':' ∉ nonce := by
  rw [split]
  simp only [Option.bind_eq_bind, Option.bind_eq_some_iff, Prod.exists, Option.pure_def, Option.some.injEq,
    Prod.mk.injEq]
  constructor
  · rintro ⟨_, rest, first, _, _, second, rfl, rfl, rfl⟩
    obtain ⟨rfl, colonless⟩ := cut_eq_some.1 first
    obtain ⟨rfl, colonless'⟩ := cut_eq_some.1 second
    exact ⟨rfl, colonless, colonless'⟩
  · rintro ⟨rfl, colonless, colonless'⟩
    exact ⟨_, _, cut_eq_some.2 ⟨rfl, colonless⟩, _, _, cut_eq_some.2 ⟨rfl, colonless'⟩, rfl, rfl, rfl⟩

/-- The byte of an ASCII character. -/
def byteOf (c : Char) : UInt8 := UInt8.ofNat c.toNat

theorem hexVal_ofNat :
    (∀ n < 128, hexVal (UInt8.ofNat n) = (toDigit (Char.ofNat n)).map UInt8.ofNat) ∧
      ∀ n < 256, (hexVal (UInt8.ofNat n)).isSome = true → UInt8.ofNat n < 0x80 := by
  decide +kernel

theorem hexVal_byteOf {c : Char} (ascii : c.toNat < 0x80) :
    hexVal (byteOf c) = (toDigit c).map UInt8.ofNat := by
  have here := hexVal_ofNat.1 c.toNat ascii
  rwa [Char.ofNat_toNat] at here

theorem ascii_of_hexVal {byte : UInt8} (digit : (hexVal byte).isSome = true) : byte < 0x80 := by
  have here := hexVal_ofNat.2 byte.toNat byte.toNat_lt
  rw [UInt8.ofNat_toNat] at here
  exact here digit

/-- A text whose bytes are ASCII is the text of these bytes. -/
theorem encode_ascii {text : Text} (ascii : ∀ byte ∈ Utf8.encode text, byte < 0x80) :
    Utf8.encode text = text.map byteOf ∧ ∀ c ∈ text, c.toNat < 0x80 := by
  induction text with
  | nil => exact ⟨rfl, nofun⟩
  | cons c text ih =>
    rw [Utf8.encode_cons] at ascii
    have small : c.toNat < 0x80 := by
      by_contra wide
      obtain ⟨lead, rest, shape, high⟩ := Utf8.utf8EncodeChar_wide (Nat.not_lt.1 wide)
      have low := ascii lead (by simp [shape])
      exact absurd low (UInt8.not_lt.2 high)
    obtain ⟨equal, rest⟩ := ih fun byte mem => ascii byte (List.mem_append_right _ mem)
    rw [Utf8.encode_cons, Utf8.utf8EncodeChar_ascii small, equal]
    exact ⟨rfl, List.forall_mem_cons.2 ⟨small, rest⟩⟩

theorem encode_of_ascii {text : Text} (ascii : ∀ c ∈ text, c.toNat < 0x80) : Utf8.encode text = text.map byteOf := by
  induction text with
  | nil => rfl
  | cons c text ih =>
    rw [List.forall_mem_cons] at ascii
    rw [Utf8.encode_cons, Utf8.utf8EncodeChar_ascii ascii.1, ih ascii.2]
    rfl

theorem hexOf_ascii {text : Text} {bytes : List UInt8} (spells : HexOf text bytes) :
    (∀ c ∈ text, c.toNat < 0x80) ∧ text.length % 2 = 0 := by
  induction spells with
  | nil => exact ⟨nofun, rfl⟩
  | cons first second _ ih =>
    refine ⟨List.forall_mem_cons.2 ⟨(Types.toDigit_ascii first).1,
      List.forall_mem_cons.2 ⟨(Types.toDigit_ascii second).1, ih.1⟩⟩, ?_⟩
    simp only [List.length_cons]
    omega

/-- Two digits of a byte put together. -/
theorem shift_or {high low : Nat} (hh : high < 16) (hl : low < 16) :
    UInt8.ofNat high <<< 4 ||| UInt8.ofNat low = UInt8.ofNat (16 * high + low) := by
  have disjoint : high <<< 4 + low = high <<< 4 ||| low := Nat.shiftLeft_add_eq_or_of_lt hl high
  have shifted : high <<< 4 = 16 * high := by rw [Nat.shiftLeft_eq, Nat.mul_comm]
  have nibble : (UInt8.ofNat high <<< 4).toNat = 16 * high := by
    rw [UInt8.toNat_shiftLeft, UInt8.toNat_ofNat', Nat.mod_eq_of_lt (by omega : high < 2 ^ 8)]
    exact (congrArg (· % 256) shifted).trans (Nat.mod_eq_of_lt (by omega))
  rw [← UInt8.toNat_inj, UInt8.toNat_or, nibble, UInt8.toNat_ofNat', UInt8.toNat_ofNat',
    Nat.mod_eq_of_lt (by omega : low < 2 ^ 8), Nat.mod_eq_of_lt (by omega : 16 * high + low < 2 ^ 8), ← shifted, disjoint]

theorem unhexPairs_of_hexOf {text : Text} {bytes : List UInt8} (spells : HexOf text bytes) :
    unhexPairs (text.map byteOf) = .ok bytes := by
  induction spells with
  | nil => rfl
  | cons first second _ ih =>
    obtain ⟨ascii, high⟩ := Types.toDigit_ascii first
    obtain ⟨ascii', low⟩ := Types.toDigit_ascii second
    rw [List.map_cons, List.map_cons, unhexPairs, hexVal_byteOf ascii, hexVal_byteOf ascii', first, second, ih]
    simp [Except.map, shift_or high low]

/-- What is read from an even number of bytes is spelled by them, digit by digit. -/
theorem of_unhexPairs {bytes read : List UInt8} (even : bytes.length % 2 = 0) (ok : unhexPairs bytes = .ok read) :
    (∀ byte ∈ bytes, (hexVal byte).isSome = true) ∧
      ∀ text : Text, (∀ c ∈ text, c.toNat < 0x80) → text.map byteOf = bytes → HexOf text read := by
  match bytes with
  | [] =>
    refine ⟨nofun, fun text _ empty => ?_⟩
    rw [List.map_eq_nil_iff] at empty
    subst empty
    rw [← Except.ok.inj ok]
    exact .nil
  | [_] => simp at even
  | a :: b :: bytes =>
    rw [unhexPairs] at ok
    cases first : hexVal a with
    | none => simp [first] at ok
    | some high =>
      cases second : hexVal b with
      | none => simp [first, second] at ok
      | some low =>
        simp only [first, second] at ok
        cases rest : unhexPairs bytes with
        | error refusal => simp [rest, Except.map] at ok
        | ok others =>
          rw [rest] at ok
          have below := of_unhexPairs (by simp only [List.length_cons] at even; omega) rest
          refine ⟨List.forall_mem_cons.2 ⟨by simp [first], List.forall_mem_cons.2 ⟨by simp [second], below.1⟩⟩, ?_⟩
          intro text ascii equal
          match text with
          | [] => simp at equal
          | [_] => simp at equal
          | c :: d :: text =>
            simp only [List.map_cons, List.cons.injEq] at equal
            obtain ⟨rfl, rfl, equal⟩ := equal
            simp only [List.forall_mem_cons] at ascii
            rw [hexVal_byteOf ascii.1, Option.map_eq_some_iff] at first
            rw [hexVal_byteOf ascii.2.1, Option.map_eq_some_iff] at second
            obtain ⟨h, digit, rfl⟩ := first
            obtain ⟨l, digit', rfl⟩ := second
            rw [← Except.ok.inj ok, shift_or (Types.toDigit_ascii digit).2 (Types.toDigit_ascii digit').2]
            exact .cons digit digit' (below.2 text ascii.2.2 equal)

/-- The decoder reads exactly the texts that spell bytes. -/
theorem unhex_eq_ok {text : Text} {bytes : List UInt8} : unhex text = .ok bytes ↔ HexOf text bytes := by
  rw [unhex]
  constructor
  · intro ok
    split_ifs at ok with odd
    have read := of_unhexPairs (not_not.1 odd) ok
    obtain ⟨equal, ascii⟩ := encode_ascii fun byte mem => ascii_of_hexVal (read.1 byte mem)
    exact read.2 text ascii equal.symm
  · intro spells
    obtain ⟨ascii, even⟩ := hexOf_ascii spells
    rw [encode_of_ascii ascii, if_neg (by simpa using even)]
    exact unhexPairs_of_hexOf spells

/-- The check of the nonce passes thirty-two digits and nothing else. -/
theorem nonce_iff {nonce : Text} :
    ((Utf8.encode nonce).length = 32 ∧ (Utf8.encode nonce).all (fun byte => (hexVal byte).isSome) = true) ↔
      nonce.length = 32 ∧ ∀ c ∈ nonce, IsHex c := by
  have digit : ∀ c : Char, c.toNat < 0x80 → ((hexVal (byteOf c)).isSome = true ↔ IsHex c) := by
    intro c ascii
    rw [hexVal_byteOf ascii, Option.isSome_map]
    exact Iff.rfl
  constructor
  · rintro ⟨length, all⟩
    rw [List.all_eq_true] at all
    obtain ⟨equal, ascii⟩ := encode_ascii fun byte mem => ascii_of_hexVal (all byte mem)
    rw [equal] at length all
    refine ⟨by simpa using length, fun c mem => ?_⟩
    exact (digit c (ascii c mem)).1 (all _ (List.mem_map_of_mem mem))
  · rintro ⟨length, all⟩
    have ascii : ∀ c ∈ nonce, c.toNat < 0x80 := by
      intro c mem
      obtain ⟨value, reads⟩ := Option.isSome_iff_exists.1 (all c mem)
      exact (Types.toDigit_ascii reads).1
    rw [encode_of_ascii ascii, List.length_map, List.all_map, List.all_eq_true]
    exact ⟨length, fun c mem => (digit c (ascii c mem)).2 (all c mem)⟩

theorem verifyWith_eq_ok {hmac : Hmac} {key : Option Key} {marker : Option Text} :
    verifyWith hmac key marker = .ok () ↔
      ∃ held text, key = some held ∧ marker = some text ∧ Authentic hmac held text := by
  unfold verifyWith
  cases marker with
  | none =>
    refine iff_of_false nofun ?_
    rintro ⟨_, _, -, none_, -⟩
    cases none_
  | some text =>
    dsimp only
    cases parts : split text with
    | none =>
      refine iff_of_false nofun ?_
      rintro ⟨_, _, -, ⟨⟩, nonce, tag, equal, -, digits, -⟩
      have colonless : ':' ∉ nonce := fun mem => absurd (digits _ mem) (by decide)
      have shaped := split_eq_some.2 (⟨equal, by decide, colonless⟩ :
        text = ['1'] ++ ':' :: (nonce ++ ':' :: tag) ∧ ':' ∉ ['1'] ∧ ':' ∉ nonce)
      rw [parts] at shaped
      cases shaped
    | some fields =>
      obtain ⟨version, nonce, presented⟩ := fields
      obtain ⟨rfl, -, -⟩ := split_eq_some.1 parts
      dsimp only
      constructor
      · intro ok
        split_ifs at ok with foreign malformed
        rw [not_not] at foreign
        rw [not_or, not_not, not_not, nonce_iff] at malformed
        cases key with
        | none => cases ok
        | some held =>
          dsimp only at ok
          cases read : unhex presented with
          | error refusal =>
            rw [read] at ok
            cases ok
          | ok tag =>
            rw [read] at ok
            dsimp only at ok
            split_ifs at ok with same
            subst foreign
            refine ⟨held, _, rfl, rfl, nonce, presented, rfl, malformed.1, malformed.2, ?_⟩
            rw [← unhex_eq_ok, read]
            exact congrArg Except.ok same.symm
      · rintro ⟨held, _, rfl, ⟨⟩, nonce', presented', equal, length, digits, spells⟩
        have colonless : ':' ∉ nonce' := fun mem => absurd (digits _ mem) (by decide)
        have shaped := split_eq_some.2 (⟨equal, by decide, colonless⟩ :
          version ++ ':' :: (nonce ++ ':' :: presented) = ['1'] ++ ':' :: (nonce' ++ ':' :: presented') ∧
            ':' ∉ ['1'] ∧ ':' ∉ nonce')
        cases parts.symm.trans shaped
        rw [if_neg (by decide), if_neg (by rw [not_or, not_not, not_not, nonce_iff]; exact ⟨length, digits⟩),
          unhex_eq_ok.2 spells]
        exact if_pos rfl

/-! ## What is minted is accepted -/

theorem toDigit_hexDigit {n : Nat} (small : n < 16) : toDigit (hexDigit n) = some n := by
  have all : ∀ n < 16, toDigit (hexDigit n) = some n := by decide
  exact all n small

theorem nibbles (byte : UInt8) :
    (byte >>> 4).toNat < 16 ∧ (byte &&& 0x0F).toNat < 16 ∧
      UInt8.ofNat (16 * (byte >>> 4).toNat + (byte &&& 0x0F).toNat) = byte := by
  have high : (byte >>> 4).toNat = byte.toNat / 16 := by
    simp [UInt8.toNat_shiftRight, Nat.shiftRight_eq_div_pow]
  have low : (byte &&& 0x0F).toNat = byte.toNat % 16 := by
    rw [UInt8.toNat_and]
    exact Nat.and_two_pow_sub_one_eq_mod byte.toNat 4
  have small := byte.toNat_lt
  rw [high, low, Nat.div_add_mod, UInt8.ofNat_toNat]
  exact ⟨by omega, by omega, rfl⟩

theorem hexOf_hex (bytes : List UInt8) : HexOf (hex bytes) bytes := by
  induction bytes with
  | nil => exact .nil
  | cons byte bytes ih =>
    obtain ⟨high, low, equal⟩ := nibbles byte
    have pair := HexOf.cons (toDigit_hexDigit high) (toDigit_hexDigit low) ih
    rwa [equal] at pair

theorem HexOf.digits {text : Text} {bytes : List UInt8} (spells : HexOf text bytes) :
    text.length = 2 * bytes.length ∧ ∀ c ∈ text, IsHex c := by
  induction spells with
  | nil => exact ⟨rfl, nofun⟩
  | cons first second _ ih =>
    refine ⟨by simp only [List.length_cons, ih.1]; omega, ?_⟩
    exact List.forall_mem_cons.2 ⟨Option.isSome_iff_exists.2 ⟨_, first⟩,
      List.forall_mem_cons.2 ⟨Option.isSome_iff_exists.2 ⟨_, second⟩, ih.2⟩⟩

theorem authentic_of_issue {hmac : Hmac} {key : Key} {fill : Option Nonce} {marker : Text}
    (minted : issue hmac (some key) fill = .ok (some marker)) : Authentic hmac key marker := by
  unfold issue at minted
  cases fill with
  | none => cases minted
  | some nonce =>
    have digits := (hexOf_hex nonce.bytes).digits
    rw [nonce.size] at digits
    rw [← Option.some.inj (Except.ok.inj minted)]
    exact ⟨hex nonce.bytes, tag hmac key (Utf8.encode (markerVersion ++ ':' :: hex nonce.bytes)), rfl, digits.1,
      digits.2, hexOf_hex _⟩

/-- Accepted is what carries an authentic tag under the key that is held, what is minted under a key is
accepted under it, and without a key or a marker nothing is. -/
theorem verifyWith_spec (hmac : Hmac) :
    (∀ key marker, verifyWith hmac (some key) (some marker) = .ok () ↔ Authentic hmac key marker) ∧
      (∀ key fill marker, issue hmac (some key) fill = .ok (some marker) →
        verifyWith hmac (some key) (some marker) = .ok ()) ∧
      ∀ key marker, key = none ∨ marker = none → verifyWith hmac key marker ≠ .ok () := by
  refine ⟨fun key marker => ?_, fun key fill marker minted => ?_, ?_⟩
  · rw [verifyWith_eq_ok]
    constructor
    · rintro ⟨_, _, ⟨⟩, ⟨⟩, authentic⟩
      exact authentic
    · intro authentic
      exact ⟨key, marker, rfl, rfl, authentic⟩
  · exact verifyWith_eq_ok.2 ⟨key, marker, rfl, rfl, authentic_of_issue minted⟩
  · rintro key marker absent ok
    obtain ⟨_, _, rfl, rfl, -⟩ := verifyWith_eq_ok.1 ok
    rcases absent with none_ | none_ <;> cases none_

end SupraHarness.Guard
