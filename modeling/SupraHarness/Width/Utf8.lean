import SupraHarness.Lib.Utf8

/-!
# Decoding UTF-8

One scalar of a byte string, or the replacement character and one byte where the string is
malformed. On the encoding of a character the decoder reads that character whole, and it reads nothing else.
-/
namespace SupraHarness.Width

def kReplacement : Nat := 0xFFFD
def kMaxCodePoint : Nat := 0x10FFFF
def kSurrogateLo : Nat := 0xD800
def kSurrogateHi : Nat := 0xDFFF

structure Decoded where
  cp : Nat
  len : Nat
  valid : Bool
  deriving DecidableEq, Repr

def isCont (b : UInt8) : Bool := b &&& 0xC0 == 0x80

/-- The payload bits of a byte, moved to their place. -/
def bits (b mask : UInt8) (shift : Nat) : Nat := (b &&& mask).toNat <<< shift

/-- What every malformed string decodes to. -/
def malformed : Decoded := ⟨kReplacement, 1, false⟩

def decode : List UInt8 → Decoded
  | [] => ⟨kReplacement, 0, false⟩
  | b0 :: rest =>
    if b0 < 0x80 then ⟨b0.toNat, 1, true⟩
    else if b0 < 0xC2 ∨ 0xF4 < b0 then malformed
    else if b0 < 0xE0 then
      match rest with
      | b1 :: _ => if isCont b1 then ⟨bits b0 0x1F 6 ||| bits b1 0x3F 0, 2, true⟩ else malformed
      | _ => malformed
    else if b0 < 0xF0 then
      match rest with
      | b1 :: b2 :: _ =>
        if isCont b1 && isCont b2 then
          let cp := bits b0 0x0F 12 ||| bits b1 0x3F 6 ||| bits b2 0x3F 0
          if cp < 0x800 ∨ (kSurrogateLo ≤ cp ∧ cp ≤ kSurrogateHi) then malformed else ⟨cp, 3, true⟩
        else malformed
      | _ => malformed
    else
      match rest with
      | b1 :: b2 :: b3 :: _ =>
        if isCont b1 && isCont b2 && isCont b3 then
          let cp := bits b0 0x07 18 ||| bits b1 0x3F 12 ||| bits b2 0x3F 6 ||| bits b3 0x3F 0
          if cp < 0x10000 ∨ kMaxCodePoint < cp then malformed else ⟨cp, 4, true⟩
        else malformed
      | _ => malformed

/-- Forward progress: a non-empty string loses at least one byte, and never more than it has. -/
theorem decode_len (b0 : UInt8) (rest : List UInt8) :
    0 < (decode (b0 :: rest)).len ∧ (decode (b0 :: rest)).len ≤ rest.length + 1 := by
  simp only [decode]
  split_ifs
  · simp
  · simp [malformed]
  · rcases rest with _ | ⟨b1, rest⟩
    · simp [malformed]
    · dsimp only
      split_ifs <;> simp [malformed]
  · rcases rest with _ | ⟨b1, _ | ⟨b2, rest⟩⟩
    · simp [malformed]
    · simp [malformed]
    · dsimp only
      split_ifs <;> simp [malformed]
  · rcases rest with _ | ⟨b1, _ | ⟨b2, _ | ⟨b3, rest⟩⟩⟩
    · simp [malformed]
    · simp [malformed]
    · simp [malformed]
    · dsimp only
      split_ifs <;> simp [malformed]

/-! ## The encoding of a character -/

theorem isCont_eq (b : UInt8) : isCont b = Utf8.continuation b := by
  have hall : ∀ n : Fin 256, isCont (UInt8.ofNat n) = Utf8.continuation (UInt8.ofNat n) := by
    decide +kernel
  simpa using hall ⟨b.toNat, b.toNat_lt⟩

theorem isCont_ofNat (n : Nat) : isCont (UInt8.ofNat (n % 64 + 128)) = true := by
  rw [isCont_eq, Utf8.continuation_ofNat (by omega)]
  omega

theorem ofNat_lt {n : Nat} (hn : n < 256) (b : UInt8) : UInt8.ofNat n < b ↔ n < b.toNat := by
  rw [UInt8.lt_iff_toNat_lt, UInt8.toNat_ofNat', Nat.mod_eq_of_lt hn]

theorem lt_ofNat {n : Nat} (hn : n < 256) (b : UInt8) : b < UInt8.ofNat n ↔ b.toNat < n := by
  rw [UInt8.lt_iff_toNat_lt, UInt8.toNat_ofNat', Nat.mod_eq_of_lt hn]

/-- The payload bits of a byte that was written as a payload and a tag above it. -/
theorem bits_ofNat {tag payload k : Nat} (shift : Nat) (hk : k ≤ 8) (htag : tag % 2 ^ k = 0)
    (hlt : payload < 2 ^ k) :
    bits (UInt8.ofNat (payload + tag)) (UInt8.ofNat (2 ^ k - 1)) shift = 2 ^ shift * payload := by
  have hpow : 2 ^ k ∣ 2 ^ 8 := Nat.pow_dvd_pow 2 hk
  have hle : 2 ^ k ≤ 2 ^ 8 := Nat.le_of_dvd (by decide) hpow
  have hpos := Nat.two_pow_pos k
  have hmask : (2 ^ k - 1) % 2 ^ 8 = 2 ^ k - 1 := Nat.mod_eq_of_lt (by omega)
  have hsum : (payload + tag) % 2 ^ k = payload := by
    rw [Nat.add_mod, htag, Nat.add_zero, Nat.mod_mod, Nat.mod_eq_of_lt hlt]
  rw [bits, UInt8.toNat_and, UInt8.toNat_ofNat', UInt8.toNat_ofNat', hmask,
    Nat.and_two_pow_sub_one_eq_mod, Nat.mod_mod_of_dvd _ hpow, hsum, Nat.shiftLeft_eq, Nat.mul_comm]

/-- Bits in disjoint places add up. -/
theorem or_eq_add {a b shift : Nat} (h : b < 2 ^ shift) : 2 ^ shift * a ||| b = 2 ^ shift * a + b :=
  (Nat.two_pow_add_eq_or_of_lt h a).symm

theorem decode_encode (c : Char) (rest : List UInt8) :
    decode (String.utf8EncodeChar c ++ rest) = ⟨c.toNat, c.utf8Size, true⟩ := by
  have hlt := Utf8.toNat_lt c
  have hv := c.valid
  rw [← String.length_utf8EncodeChar]
  simp only [UInt32.isValidChar, Nat.isValidChar] at hv
  have htoNat : c.toNat = c.val.toNat := rfl
  rw [htoNat]
  generalize hn : c.val.toNat = v at hlt hv
  have hcont : ∀ (n shift : Nat),
      bits (UInt8.ofNat (n % 64 + 128)) 0x3F shift = 2 ^ shift * (n % 64) := fun n shift =>
    bits_ofNat (k := 6) shift (by decide) (by decide) (by omega)
  simp only [String.utf8EncodeChar, hn]
  split_ifs with h1 h2 h3
  · have hb : UInt8.ofNat v < 0x80 := (ofNat_lt (by omega) _).2 (by simpa using by omega)
    simp only [decode, List.cons_append, hb, if_true, List.length_singleton, Decoded.mk.injEq,
      and_true]
    rw [UInt8.toNat_ofNat', Nat.mod_eq_of_lt (by omega)]
  · have hlead : v / 64 % 32 + 192 < 256 := by omega
    have hb0 : bits (UInt8.ofNat (v / 64 % 32 + 192)) 0x1F 6 = 2 ^ 6 * (v / 64 % 32) :=
      bits_ofNat (k := 5) 6 (by decide) (by decide) (by omega)
    have hcp : 2 ^ 6 * (v / 64 % 32) ||| 2 ^ 0 * (v % 64) = v := by
      rw [or_eq_add (by omega)]
      omega
    simp only [List.cons_append, decode, ofNat_lt hlead, lt_ofNat hlead, UInt8.reduceToNat]
    rw [if_neg (by omega), if_neg (by omega), if_pos (by omega), isCont_ofNat, if_pos rfl, hb0,
      hcont, hcp]
    rfl
  · have hlead : v / 4096 % 16 + 224 < 256 := by omega
    have hb0 : bits (UInt8.ofNat (v / 4096 % 16 + 224)) 0x0F 12 = 2 ^ 12 * (v / 4096 % 16) :=
      bits_ofNat (k := 4) 12 (by decide) (by decide) (by omega)
    have hcp : 2 ^ 12 * (v / 4096 % 16) ||| 2 ^ 6 * (v / 64 % 64) ||| 2 ^ 0 * (v % 64) = v := by
      rw [Nat.or_assoc, or_eq_add (b := 2 ^ 0 * (v % 64)) (by omega), or_eq_add (by omega)]
      omega
    simp only [List.cons_append, decode, ofNat_lt hlead, lt_ofNat hlead, UInt8.reduceToNat,
      isCont_ofNat, Bool.and_self, if_true, hb0, hcont, hcp]
    rw [if_neg (by omega), if_neg (by omega), if_neg (by omega), if_pos (by omega),
      if_neg (by simp only [kSurrogateLo, kSurrogateHi]; omega)]
    rfl
  · have hlead : v / 262144 % 8 + 240 < 256 := by omega
    have hb0 : bits (UInt8.ofNat (v / 262144 % 8 + 240)) 0x07 18 = 2 ^ 18 * (v / 262144 % 8) :=
      bits_ofNat (k := 3) 18 (by decide) (by decide) (by omega)
    have hcp : 2 ^ 18 * (v / 262144 % 8) ||| 2 ^ 12 * (v / 4096 % 64) ||| 2 ^ 6 * (v / 64 % 64) |||
        2 ^ 0 * (v % 64) = v := by
      rw [Nat.or_assoc, Nat.or_assoc, or_eq_add (b := 2 ^ 0 * (v % 64)) (by omega),
        or_eq_add (b := 2 ^ 6 * (v / 64 % 64) + _) (by omega), or_eq_add (by omega)]
      omega
    simp only [List.cons_append, decode, ofNat_lt hlead, lt_ofNat hlead, UInt8.reduceToNat,
      isCont_ofNat, Bool.and_self, if_true, hb0, hcont, hcp]
    rw [if_neg (by omega), if_neg (by omega), if_neg (by omega), if_neg (by omega),
      if_neg (by simp only [kMaxCodePoint]; omega)]
    rfl

/-! ## Well-formed bytes -/

/-- `supra_utf8_decode`: the code point, the bytes consumed, and 1 for a well-formed scalar. -/
def utf8Decode (bytes : List UInt8) : Nat × Nat × Nat :=
  if bytes = [] then (kReplacement, 0, 0)
  else ((decode bytes).cp, (decode bytes).len, if (decode bytes).valid then 1 else 0)

/-- `supra_utf8_encoded_len` -/
def utf8EncodedLen (cp : Nat) : Nat :=
  if kSurrogateLo ≤ cp ∧ cp ≤ kSurrogateHi then 0
  else if kMaxCodePoint < cp then 0
  else if cp < 0x80 then 1
  else if cp < 0x800 then 2
  else if cp < 0x10000 then 3
  else 4

theorem utf8EncodedLen_char (c : Char) : utf8EncodedLen c.toNat = (String.utf8EncodeChar c).length := by
  have hv := c.valid
  simp only [UInt32.isValidChar, Nat.isValidChar] at hv
  have htoNat : c.toNat = c.val.toNat := rfl
  have scalar : ¬ (kSurrogateLo ≤ c.val.toNat ∧ c.val.toNat ≤ kSurrogateHi) ∧ ¬ kMaxCodePoint < c.val.toNat := by
    simp only [kSurrogateLo, kSurrogateHi, kMaxCodePoint]
    omega
  rw [utf8EncodedLen, htoNat, if_neg scalar.1, if_neg scalar.2, String.utf8EncodeChar]
  generalize c.val.toNat = v
  by_cases h1 : v < 0x80
  · rw [if_pos h1, if_pos (Nat.le_of_lt_succ h1)]
    rfl
  by_cases h2 : v < 0x800
  · rw [if_neg h1, if_neg fun h => h1 (Nat.lt_succ_of_le h), if_pos h2, if_pos (Nat.le_of_lt_succ h2)]
    rfl
  rw [if_neg h1, if_neg fun h => h1 (Nat.lt_succ_of_le h), if_neg h2, if_neg fun h => h2 (Nat.lt_succ_of_le h)]
  by_cases h3 : v < 0x10000
  · rw [if_pos h3, if_pos (Nat.le_of_lt_succ h3)]
    rfl
  · rw [if_neg h3, if_neg fun h => h3 (Nat.lt_succ_of_le h)]
    rfl

/-- What is no scalar value has no length. -/
theorem utf8EncodedLen_eq_zero (cp : Nat) : utf8EncodedLen cp = 0 ↔ ¬ cp.isValidChar := by
  have outside : (kSurrogateLo ≤ cp ∧ cp ≤ kSurrogateHi) ∨ kMaxCodePoint < cp ↔ ¬ cp.isValidChar := by
    simp only [kSurrogateLo, kSurrogateHi, kMaxCodePoint, Nat.isValidChar]
    omega
  rw [← outside, utf8EncodedLen]
  split_ifs with h1 h2 <;> simp [*]

theorem isCont_iff (b : UInt8) : isCont b = true ↔ 128 ≤ b.toNat ∧ b.toNat ≤ 191 := by
  rw [isCont_eq, Utf8.continuation, Bool.and_eq_true, decide_eq_true_eq, decide_eq_true_eq, UInt8.le_iff_toNat_le,
    UInt8.le_iff_toNat_le]
  rfl

/-- Masking off the tag of a byte. -/
theorem bits_mask (b : UInt8) {k : Nat} (hk : k ≤ 8) (shift : Nat) :
    bits b (UInt8.ofNat (2 ^ k - 1)) shift = 2 ^ shift * (b.toNat % 2 ^ k) := by
  have hle : 2 ^ k ≤ 2 ^ 8 := Nat.pow_le_pow_right (by decide) hk
  have hpos := Nat.two_pow_pos k
  rw [bits, UInt8.toNat_and, UInt8.toNat_ofNat', Nat.mod_eq_of_lt (by omega), Nat.and_two_pow_sub_one_eq_mod,
    Nat.shiftLeft_eq, Nat.mul_comm]

theorem exists_char {v : Nat} (h : v.isValidChar) : ∃ c : Char, c.val.toNat = v :=
  ⟨Char.ofNatAux v h, rfl⟩

theorem ofNat_toNat {n : Nat} {b : UInt8} (h : n = b.toNat) : UInt8.ofNat n = b := by
  rw [h, UInt8.ofNat_toNat]

theorem encode_two {b0 b1 : UInt8} (h0 : 0xC2 ≤ b0.toNat ∧ b0.toNat < 0xE0) (h1 : isCont b1 = true) :
    ∃ c, String.utf8EncodeChar c = [b0, b1] := by
  rw [isCont_iff] at h1
  obtain ⟨c, hc⟩ := @exists_char (2 ^ 6 * (b0.toNat % 2 ^ 5) + b1.toNat % 2 ^ 6)
    (by simp only [Nat.isValidChar]; omega)
  refine ⟨c, ?_⟩
  simp only [String.utf8EncodeChar, hc]
  rw [if_neg (by omega), if_pos (by omega), ofNat_toNat (b := b0) (by omega), ofNat_toNat (b := b1) (by omega)]

theorem encode_three {b0 b1 b2 : UInt8} (h0 : 0xE0 ≤ b0.toNat ∧ b0.toNat < 0xF0) (h1 : isCont b1 = true)
    (h2 : isCont b2 = true)
    (hcp : ¬ (bits b0 0x0F 12 ||| bits b1 0x3F 6 ||| bits b2 0x3F 0 < 0x800 ∨
      (kSurrogateLo ≤ bits b0 0x0F 12 ||| bits b1 0x3F 6 ||| bits b2 0x3F 0 ∧
        bits b0 0x0F 12 ||| bits b1 0x3F 6 ||| bits b2 0x3F 0 ≤ kSurrogateHi))) :
    ∃ c, String.utf8EncodeChar c = [b0, b1, b2] := by
  have cp : bits b0 0x0F 12 ||| bits b1 0x3F 6 ||| bits b2 0x3F 0 =
      2 ^ 12 * (b0.toNat % 2 ^ 4) + (2 ^ 6 * (b1.toNat % 2 ^ 6) + 2 ^ 0 * (b2.toNat % 2 ^ 6)) := by
    rw [show (0x0F : UInt8) = UInt8.ofNat (2 ^ 4 - 1) from rfl, show (0x3F : UInt8) = UInt8.ofNat (2 ^ 6 - 1) from rfl,
      bits_mask _ (by decide), bits_mask _ (by decide), bits_mask _ (by decide), Nat.or_assoc,
      or_eq_add (b := 2 ^ 0 * _) (by omega), or_eq_add (by omega)]
  rw [cp] at hcp
  rw [isCont_iff] at h1 h2
  simp only [kSurrogateLo, kSurrogateHi] at hcp
  obtain ⟨c, hc⟩ := @exists_char _ (show Nat.isValidChar (2 ^ 12 * (b0.toNat % 2 ^ 4) +
    (2 ^ 6 * (b1.toNat % 2 ^ 6) + 2 ^ 0 * (b2.toNat % 2 ^ 6))) by simp only [Nat.isValidChar]; omega)
  refine ⟨c, ?_⟩
  simp only [String.utf8EncodeChar, hc]
  rw [if_neg (by omega), if_neg (by omega), if_pos (by omega), ofNat_toNat (b := b0) (by omega),
    ofNat_toNat (b := b1) (by omega), ofNat_toNat (b := b2) (by omega)]

theorem encode_four {b0 b1 b2 b3 : UInt8} (h0 : 0xF0 ≤ b0.toNat ∧ b0.toNat ≤ 0xF4) (h1 : isCont b1 = true)
    (h2 : isCont b2 = true) (h3 : isCont b3 = true)
    (hcp : ¬ (bits b0 0x07 18 ||| bits b1 0x3F 12 ||| bits b2 0x3F 6 ||| bits b3 0x3F 0 < 0x10000 ∨
      kMaxCodePoint < bits b0 0x07 18 ||| bits b1 0x3F 12 ||| bits b2 0x3F 6 ||| bits b3 0x3F 0)) :
    ∃ c, String.utf8EncodeChar c = [b0, b1, b2, b3] := by
  have cp : bits b0 0x07 18 ||| bits b1 0x3F 12 ||| bits b2 0x3F 6 ||| bits b3 0x3F 0 =
      2 ^ 18 * (b0.toNat % 2 ^ 3) +
        (2 ^ 12 * (b1.toNat % 2 ^ 6) + (2 ^ 6 * (b2.toNat % 2 ^ 6) + 2 ^ 0 * (b3.toNat % 2 ^ 6))) := by
    rw [show (0x07 : UInt8) = UInt8.ofNat (2 ^ 3 - 1) from rfl, show (0x3F : UInt8) = UInt8.ofNat (2 ^ 6 - 1) from rfl,
      bits_mask _ (by decide), bits_mask _ (by decide), bits_mask _ (by decide), bits_mask _ (by decide),
      Nat.or_assoc, Nat.or_assoc, or_eq_add (b := 2 ^ 0 * _) (by omega),
      or_eq_add (b := 2 ^ 6 * _ + _) (by omega), or_eq_add (by omega)]
  rw [cp] at hcp
  rw [isCont_iff] at h1 h2 h3
  simp only [kMaxCodePoint] at hcp
  obtain ⟨c, hc⟩ := @exists_char _ (show Nat.isValidChar (2 ^ 18 * (b0.toNat % 2 ^ 3) +
    (2 ^ 12 * (b1.toNat % 2 ^ 6) + (2 ^ 6 * (b2.toNat % 2 ^ 6) + 2 ^ 0 * (b3.toNat % 2 ^ 6)))) by
      simp only [Nat.isValidChar]; omega)
  refine ⟨c, ?_⟩
  simp only [String.utf8EncodeChar, hc]
  rw [if_neg (by omega), if_neg (by omega), if_neg (by omega), ofNat_toNat (b := b0) (by omega),
    ofNat_toNat (b := b1) (by omega), ofNat_toNat (b := b2) (by omega), ofNat_toNat (b := b3) (by omega)]

/-- A valid scalar stands for the character whose encoding the string begins with. -/
theorem exists_char_of_valid {bytes : List UInt8} (h : (decode bytes).valid = true) :
    ∃ c rest, bytes = String.utf8EncodeChar c ++ rest := by
  rcases bytes with _ | ⟨b0, rest⟩
  · cases h
  have lead {c : Char} {front back : List UInt8} (hc : String.utf8EncodeChar c = front) (hb : b0 :: rest = front ++ back) :
      ∃ c rest', b0 :: rest = String.utf8EncodeChar c ++ rest' := ⟨c, back, by rw [hc, hb]⟩
  simp only [decode] at h
  by_cases h1 : b0 < 0x80
  · have low : b0.toNat < 0x80 := UInt8.lt_iff_toNat_lt.1 h1
    obtain ⟨c, hc⟩ := @exists_char b0.toNat (by simp only [Nat.isValidChar]; omega)
    have ascii : c.toNat < 0x80 := lt_of_eq_of_lt hc low
    have first : UInt8.ofNat c.toNat = b0 := ofNat_toNat hc
    exact lead (Utf8.utf8EncodeChar_ascii ascii) (by rw [first]; rfl)
  by_cases h2 : b0 < 0xC2 ∨ 0xF4 < b0
  · rw [if_neg h1, if_pos h2] at h
    cases h
  rw [if_neg h1, if_neg h2] at h
  simp only [UInt8.lt_iff_toNat_lt, UInt8.reduceToNat] at h h1 h2
  by_cases h3 : b0.toNat < 0xE0
  · rw [if_pos h3] at h
    rcases rest with _ | ⟨b1, rest⟩
    · cases h
    · dsimp only at h
      split_ifs at h with hc
      · have h0 : 0xC2 ≤ b0.toNat ∧ b0.toNat < 0xE0 := by omega
        obtain ⟨c, hc⟩ := encode_two h0 hc
        exact lead hc rfl
      · cases h
  rw [if_neg h3] at h
  by_cases h4 : b0.toNat < 0xF0
  · rw [if_pos h4] at h
    rcases rest with _ | ⟨b1, _ | ⟨b2, rest⟩⟩
    · cases h
    · cases h
    · dsimp only at h
      split_ifs at h with hc hcp
      · cases h
      · rw [Bool.and_eq_true] at hc
        have h0 : 0xE0 ≤ b0.toNat ∧ b0.toNat < 0xF0 := by omega
        obtain ⟨c, hc⟩ := encode_three h0 hc.1 hc.2 hcp
        exact lead hc rfl
      · cases h
  · rw [if_neg h4] at h
    rcases rest with _ | ⟨b1, _ | ⟨b2, _ | ⟨b3, rest⟩⟩⟩
    · cases h
    · cases h
    · cases h
    · dsimp only at h
      split_ifs at h with hc hcp
      · cases h
      · rw [Bool.and_eq_true, Bool.and_eq_true] at hc
        have h0 : 0xF0 ≤ b0.toNat ∧ b0.toNat ≤ 0xF4 := by omega
        obtain ⟨c, hc⟩ := encode_four h0 hc.1.1 hc.1.2 hc.2 hcp
        exact lead hc rfl
      · cases h

/-- A string is malformed at its first byte unless it begins with a character. -/
theorem decode_of_not_valid {bytes : List UInt8} (hne : bytes ≠ []) (h : (decode bytes).valid = false) :
    decode bytes = malformed := by
  obtain ⟨b0, rest, rfl⟩ := List.exists_cons_of_ne_nil hne
  simp only [decode] at h ⊢
  split_ifs at h ⊢
  · rfl
  · rcases rest with _ | ⟨b1, rest⟩
    · rfl
    · dsimp only at h ⊢
      split_ifs at h ⊢
      rfl
  · rcases rest with _ | ⟨b1, _ | ⟨b2, rest⟩⟩
    · rfl
    · rfl
    · dsimp only at h ⊢
      split_ifs at h ⊢ <;> rfl
  · rcases rest with _ | ⟨b1, _ | ⟨b2, _ | ⟨b3, rest⟩⟩⟩
    · rfl
    · rfl
    · rfl
    · dsimp only at h ⊢
      split_ifs at h ⊢ <;> rfl

theorem valid_of_char {bytes : List UInt8} {c : Char} {rest : List UInt8}
    (h : bytes = String.utf8EncodeChar c ++ rest) : (decode bytes).valid = true := by
  rw [h, decode_encode]

/-- The decoder reads the character that a string begins with, with the length that the character has, and takes one
byte of every other string for a replacement character. -/
theorem utf8Decode_reads (bytes : List UInt8) :
    (∀ c rest, bytes = String.utf8EncodeChar c ++ rest →
      utf8Decode bytes = (c.toNat, utf8EncodedLen c.toNat, 1) ∧
        utf8EncodedLen c.toNat = (String.utf8EncodeChar c).length) ∧
    ((∀ c rest, bytes ≠ String.utf8EncodeChar c ++ rest) → bytes ≠ [] → utf8Decode bytes = (0xFFFD, 1, 0)) ∧
    (bytes = [] → utf8Decode bytes = (0xFFFD, 0, 0)) := by
  refine ⟨?_, ?_, ?_⟩
  · rintro c rest rfl
    have hne : String.utf8EncodeChar c ++ rest ≠ [] := by simp [Utf8.utf8EncodeChar_ne_nil]
    refine ⟨?_, utf8EncodedLen_char c⟩
    rw [utf8Decode, if_neg hne, decode_encode, utf8EncodedLen_char, String.length_utf8EncodeChar]
    rfl
  · intro apart hne
    have invalid : (decode bytes).valid = false := by
      rw [← Bool.not_eq_true]
      intro valid
      obtain ⟨c, rest, h⟩ := exists_char_of_valid valid
      exact apart c rest h
    rw [utf8Decode, if_neg hne, decode_of_not_valid hne invalid]
    rfl
  · rintro rfl
    rfl

/-! ## A whole string -/

/-- The scalars a string decodes to one after the other; each takes at least one byte. -/
def decodeAll : Nat → List UInt8 → List Decoded
  | 0, _ => []
  | _ + 1, [] => []
  | fuel + 1, b0 :: rest =>
    let d := decode (b0 :: rest)
    d :: decodeAll fuel ((b0 :: rest).drop d.len)

def scalars (bytes : List UInt8) : List Decoded := decodeAll bytes.length bytes

def codePoints (bytes : List UInt8) : List Nat := (scalars bytes).map Decoded.cp

theorem decodeAll_enough {fuel fuel' : Nat} {bytes : List UInt8} (h : bytes.length ≤ fuel)
    (h' : bytes.length ≤ fuel') : decodeAll fuel bytes = decodeAll fuel' bytes := by
  induction fuel generalizing fuel' bytes with
  | zero =>
    obtain rfl := List.length_eq_zero_iff.1 (Nat.le_zero.1 h)
    cases fuel' <;> rfl
  | succ fuel ih =>
    cases bytes with
    | nil => cases fuel' <;> rfl
    | cons b0 rest =>
      cases fuel' with
      | zero => exact absurd h' (by simp)
      | succ fuel' =>
        have hlen := (decode_len b0 rest).1
        rw [List.length_cons] at h h'
        simp only [decodeAll, List.cons.injEq, true_and]
        apply ih
        · rw [List.length_drop, List.length_cons]
          omega
        · rw [List.length_drop, List.length_cons]
          omega

@[simp] theorem scalars_nil : scalars [] = [] := rfl

theorem scalars_cons (b0 : UInt8) (rest : List UInt8) :
    scalars (b0 :: rest) =
      decode (b0 :: rest) :: scalars ((b0 :: rest).drop (decode (b0 :: rest)).len) := by
  have hlen := (decode_len b0 rest).1
  rw [scalars, List.length_cons, decodeAll, scalars]
  congr 1
  apply decodeAll_enough
  · rw [List.length_drop, List.length_cons]
    omega
  · exact Nat.le_refl _

theorem scalars_encode_cons (c : Char) (rest : List UInt8) :
    scalars (String.utf8EncodeChar c ++ rest) = ⟨c.toNat, c.utf8Size, true⟩ :: scalars rest := by
  obtain ⟨b0, tail, h⟩ := List.exists_cons_of_ne_nil (Utf8.utf8EncodeChar_ne_nil c)
  have hd := decode_encode c rest
  have hlen := String.length_utf8EncodeChar c
  rw [h, List.cons_append] at hd ⊢
  rw [scalars_cons, hd, ← hlen, h, ← List.cons_append, List.drop_left]

/-- The scalars of a valid string are its characters. -/
theorem scalars_encode (cs : List Char) :
    scalars (Utf8.encode cs) = cs.map fun c => ⟨c.toNat, c.utf8Size, true⟩ := by
  induction cs with
  | nil => rfl
  | cons c cs ih => rw [Utf8.encode_cons, scalars_encode_cons, ih, List.map_cons]

/-- The bytes behind the first scalars decode to the others. -/
theorem scalars_drop (bytes : List UInt8) (n : Nat) :
    scalars (bytes.drop (((scalars bytes).take n).map Decoded.len).sum) = (scalars bytes).drop n := by
  induction n generalizing bytes with
  | zero => simp
  | succ n ih =>
    cases bytes with
    | nil => simp
    | cons b0 rest =>
      have hrest := ih ((b0 :: rest).drop (decode (b0 :: rest)).len)
      rw [scalars_cons, List.take_succ_cons, List.map_cons, List.sum_cons, List.drop_succ_cons,
        ← List.drop_drop, hrest]

end SupraHarness.Width
