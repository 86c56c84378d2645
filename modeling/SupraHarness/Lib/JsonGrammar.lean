import SupraHarness.Lib.Utf8

/-!
# The JSON grammar

JSON texts as byte strings, read from the left: a part of the grammar takes a front of the text,
and what it has read is a tree of its tokens, with the strings decoded and the other scalars as
they are spelled. A dialect says which characters stand for themselves in a string, how four bytes
of an escape are read as a number, and which scalars there are. The trees keep repeated keys.
-/
namespace SupraHarness.Json

/-! ## Whitespace and strings -/

def isWs (byte : UInt8) : Bool := byte == 0x20 || byte == 0x09 || byte == 0x0A || byte == 0x0D

/-- Some whitespace in front of the rest. -/
def Ws (text rest : List UInt8) : Prop := ∃ w, (∀ byte ∈ w, isWs byte = true) ∧ text = w ++ rest

def skipWs (text : List UInt8) : List UInt8 := text.dropWhile isWs

theorem skipWs_of_ws {text rest : List UInt8} (h : Ws text rest) : skipWs text = skipWs rest := by
  obtain ⟨w, hw, rfl⟩ := h
  exact List.dropWhile_append_of_pos hw

theorem skipWs_eq {text rest : List UInt8} (h : Ws text rest)
    (hhead : ∀ byte ∈ rest.head?, isWs byte = false) : skipWs text = rest := by
  rw [skipWs_of_ws h]
  cases rest with
  | nil => rfl
  | cons byte rest =>
    have hbyte := hhead byte rfl
    rw [skipWs, List.dropWhile_cons_of_neg (by rw [hbyte]; exact Bool.false_ne_true)]

theorem skipWs_cons_eq {text rest : List UInt8} {byte : UInt8} (h : Ws text (byte :: rest))
    (hbyte : isWs byte = false) : skipWs text = byte :: rest :=
  skipWs_eq h (by simpa using hbyte)

theorem ws_skipWs (text : List UInt8) : Ws text (skipWs text) :=
  ⟨text.takeWhile isWs, List.all_eq_true.mp List.all_takeWhile,
    List.takeWhile_append_dropWhile.symm⟩

theorem skipWs_head (text : List UInt8) : ∀ byte ∈ (skipWs text).head?, isWs byte = false := by
  intro byte hbyte
  have h := List.head?_dropWhile_not isWs text
  rw [skipWs] at hbyte
  rw [Option.mem_def.mp hbyte] at h
  simpa using h

theorem ws_refl (text : List UInt8) : Ws text text := ⟨[], nofun, rfl⟩

theorem length_of_ws {text rest : List UInt8} (h : Ws text rest) : rest.length ≤ text.length := by
  obtain ⟨w, -, rfl⟩ := h
  rw [List.length_append]
  omega

theorem isWs_ascii {byte : UInt8} (h : isWs byte = true) : byte < 0x80 := by
  simp only [isWs, Bool.or_eq_true, beq_iff_eq] at h
  rcases h with ((rfl | rfl) | rfl) | rfl <;> decide

/-- The character a short escape stands for. -/
def shortEscape (byte : UInt8) : Option Char :=
  if byte = 0x22 then some '"' else if byte = 0x5C then some '\\' else if byte = 0x2F then some '/'
  else if byte = 0x62 then some '\x08' else if byte = 0x66 then some '\x0c'
  else if byte = 0x6E then some '\n' else if byte = 0x72 then some '\r'
  else if byte = 0x74 then some '\t' else none

def isHigh (code : Nat) : Bool := 0xD800 ≤ code && code < 0xDC00

def isLow (code : Nat) : Bool := 0xDC00 ≤ code && code < 0xE000

/-- The code point of a surrogate pair. -/
def combine (high low : Nat) : Nat := 0x10000 + (high - 0xD800) * 1024 + (low - 0xDC00)

structure Dialect where
  plain : Char → Bool
  hex : List UInt8 → Option Nat
  scalar : List UInt8 → List UInt8 → Prop

/-- One character of a string. -/
inductive Ch (D : Dialect) : List UInt8 → Char → List UInt8 → Prop
  | plain (c : Char) (rest : List UInt8) (h : D.plain c = true) (hquote : c ≠ '"')
      (hslash : c ≠ '\\') : Ch D (String.utf8EncodeChar c ++ rest) c rest
  | short (byte : UInt8) (c : Char) (rest : List UInt8) (h : shortEscape byte = some c) :
      Ch D (0x5C :: byte :: rest) c rest
  | code (hex : List UInt8) (code : Nat) (rest : List UInt8) (hlen : hex.length = 4)
      (h : D.hex hex = some code) (hhigh : isHigh code = false) (hlow : isLow code = false) :
      Ch D (0x5C :: 0x75 :: (hex ++ rest)) (Char.ofNat code) rest
  | pair (hex hex' : List UInt8) (high low : Nat) (rest : List UInt8) (hlen : hex.length = 4)
      (hlen' : hex'.length = 4) (h : D.hex hex = some high) (h' : D.hex hex' = some low)
      (hhigh : isHigh high = true) (hlow : isLow low = true) :
      Ch D (0x5C :: 0x75 :: (hex ++ 0x5C :: 0x75 :: (hex' ++ rest))) (Char.ofNat (combine high low)) rest

/-- The characters of a string, and the quotation mark that ends it. -/
inductive Chars (D : Dialect) : List UInt8 → List Char → List UInt8 → Prop
  | nil (rest : List UInt8) : Chars D (0x22 :: rest) [] rest
  | cons {text next rest : List UInt8} {c : Char} {cs : List Char} (h : Ch D text c next)
      (hs : Chars D next cs rest) : Chars D text (c :: cs) rest

/-! ## Values -/

inductive Raw where
  | scalar (lexeme : List UInt8)
  | string (cs : List Char)
  | array (items : List Raw)
  | object (items : List (List Char × Raw))

inductive Part where
  | value | elements | members
  deriving DecidableEq, Repr

/-- A part of the grammar in front of the rest. Elements and members include the closing bracket. -/
inductive Reads (D : Dialect) : Part → List UInt8 → Raw → List UInt8 → Prop
  | scalar {lexeme rest : List UInt8} (h : D.scalar lexeme rest) :
      Reads D .value (lexeme ++ rest) (.scalar lexeme) rest
  | string {text rest : List UInt8} {cs : List Char} (h : Chars D text cs rest) :
      Reads D .value (0x22 :: text) (.string cs) rest
  | emptyArray {text rest : List UInt8} (h : Ws text (0x5D :: rest)) :
      Reads D .value (0x5B :: text) (.array []) rest
  | array {text rest : List UInt8} {raw : Raw} (h : Reads D .elements text raw rest) :
      Reads D .value (0x5B :: text) raw rest
  | emptyObject {text rest : List UInt8} (h : Ws text (0x7D :: rest)) :
      Reads D .value (0x7B :: text) (.object []) rest
  | object {text rest : List UInt8} {raw : Raw} (h : Reads D .members text raw rest) :
      Reads D .value (0x7B :: text) raw rest
  | lastElement {text text₁ text₂ rest : List UInt8} {raw : Raw} (hw : Ws text text₁)
      (hv : Reads D .value text₁ raw text₂) (he : Ws text₂ (0x5D :: rest)) :
      Reads D .elements text (.array [raw]) rest
  | element {text text₁ text₂ text₃ rest : List UInt8} {raw : Raw} {raws : List Raw}
      (hw : Ws text text₁) (hv : Reads D .value text₁ raw text₂) (he : Ws text₂ (0x2C :: text₃))
      (hr : Reads D .elements text₃ (.array raws) rest) :
      Reads D .elements text (.array (raw :: raws)) rest
  | lastMember {text text₁ text₂ text₃ text₄ text₅ rest : List UInt8} {key : List Char} {raw : Raw}
      (hw : Ws text (0x22 :: text₁)) (hk : Chars D text₁ key text₂) (hc : Ws text₂ (0x3A :: text₃))
      (hw' : Ws text₃ text₄) (hv : Reads D .value text₄ raw text₅) (he : Ws text₅ (0x7D :: rest)) :
      Reads D .members text (.object [(key, raw)]) rest
  | member {text text₁ text₂ text₃ text₄ text₅ text₆ rest : List UInt8} {key : List Char} {raw : Raw}
      {items : List (List Char × Raw)}
      (hw : Ws text (0x22 :: text₁)) (hk : Chars D text₁ key text₂) (hc : Ws text₂ (0x3A :: text₃))
      (hw' : Ws text₃ text₄) (hv : Reads D .value text₄ raw text₅) (he : Ws text₅ (0x2C :: text₆))
      (hr : Reads D .members text₆ (.object items) rest) :
      Reads D .members text (.object ((key, raw) :: items)) rest

/-- A whole text: a value between whitespace. -/
def Text (D : Dialect) (text : List UInt8) (raw : Raw) : Prop :=
  ∃ text₁ rest, Ws text text₁ ∧ Reads D .value text₁ raw rest ∧ Ws rest []

/-! ## Lengths -/

theorem length_of_ch {D : Dialect} {text rest : List UInt8} {c : Char}
    (h : Ch D text c rest) : rest.length < text.length := by
  cases h with
  | plain c rest =>
    have := List.length_pos_iff.mpr (Utf8.utf8EncodeChar_ne_nil c)
    rw [List.length_append]
    omega
  | short byte c rest =>
    simp only [List.length_cons]
    omega
  | code hex code rest =>
    simp only [List.length_cons, List.length_append]
    omega
  | pair hex hex' high low rest =>
    simp only [List.length_cons, List.length_append]
    omega

theorem length_of_chars {D : Dialect} {text rest : List UInt8} {cs : List Char}
    (h : Chars D text cs rest) : rest.length < text.length := by
  induction h with
  | nil rest =>
    rw [List.length_cons]
    omega
  | cons h _ ih =>
    have := length_of_ch h
    omega

theorem reads_length {D : Dialect} {text rest : List UInt8} {raw : Raw} {part : Part}
    (h : Reads D part text raw rest) :
    rest.length + (if part = .value then 0 else 1) ≤ text.length := by
  induction h with
  | scalar h =>
    rw [List.length_append]
    simp
  | string h =>
    have := length_of_chars h
    simp only [List.length_cons, if_true]
    omega
  | emptyArray h =>
    have := length_of_ws h
    simp only [List.length_cons, if_true] at *
    omega
  | array _ ih =>
    simp only [List.length_cons, if_true, reduceCtorEq, if_false] at *
    omega
  | emptyObject h =>
    have := length_of_ws h
    simp only [List.length_cons, if_true] at *
    omega
  | object _ ih =>
    simp only [List.length_cons, if_true, reduceCtorEq, if_false] at *
    omega
  | lastElement hw _ he ih =>
    have := length_of_ws hw
    have := length_of_ws he
    simp only [List.length_cons, if_true, reduceCtorEq, if_false] at *
    omega
  | element hw _ he _ ih ih' =>
    have := length_of_ws hw
    have := length_of_ws he
    simp only [List.length_cons, if_true, reduceCtorEq, if_false] at *
    omega
  | lastMember hw hk hc hw' _ he ih =>
    have := length_of_ws hw
    have := length_of_chars hk
    have := length_of_ws hc
    have := length_of_ws hw'
    have := length_of_ws he
    simp only [List.length_cons, if_true, reduceCtorEq, if_false] at *
    omega
  | member hw hk hc hw' _ he _ ih ih' =>
    have := length_of_ws hw
    have := length_of_chars hk
    have := length_of_ws hc
    have := length_of_ws hw'
    have := length_of_ws he
    simp only [List.length_cons, if_true, reduceCtorEq, if_false] at *
    omega

namespace Raw

mutual

/-- No object in the tree has the same key twice. -/
def distinct : Raw → Bool
  | scalar _ => true
  | string _ => true
  | array items => distinctItems items
  | object items => decide (items.map Prod.fst).Nodup && distinctMembers items

def distinctItems : List Raw → Bool
  | [] => true
  | raw :: raws => distinct raw && distinctItems raws

def distinctMembers : List (List Char × Raw) → Bool
  | [] => true
  | (_, raw) :: items => distinct raw && distinctMembers items

end

end Raw

/-! ## The standard dialect -/

/-- The value of a hexadecimal digit. -/
def hexDigit (byte : UInt8) : Option Nat :=
  if 0x30 ≤ byte ∧ byte ≤ 0x39 then some (byte.toNat - 0x30)
  else if 0x41 ≤ byte ∧ byte ≤ 0x46 then some (byte.toNat - 0x37)
  else if 0x61 ≤ byte ∧ byte ≤ 0x66 then some (byte.toNat - 0x57)
  else none

/-- The number that hexadecimal digits spell, after a number they continue. -/
def hexFrom (acc : Nat) : List UInt8 → Option Nat
  | [] => some acc
  | byte :: bytes =>
    match hexDigit byte with
    | none => none
    | some digit => hexFrom (acc * 16 + digit) bytes

def isDigit (byte : UInt8) : Bool := 0x30 ≤ byte && byte ≤ 0x39

/-- Digits up to the end, at least one. -/
def allDigits (lexeme : List UInt8) : Bool := !lexeme.isEmpty && lexeme.all isDigit

/-- An exponent after its letter: a sign or none, and digits. -/
def isExponent : List UInt8 → Bool
  | [] => false
  | byte :: lexeme =>
    if byte = 0x2B ∨ byte = 0x2D then allDigits lexeme else allDigits (byte :: lexeme)

/-- What may follow the fraction of a number: nothing, or an exponent. -/
def isExp : List UInt8 → Bool
  | [] => true
  | byte :: lexeme => (byte == 0x65 || byte == 0x45) && isExponent lexeme

/-- What may follow the integer part of a number. -/
def isFracExp : List UInt8 → Bool
  | [] => true
  | byte :: lexeme =>
    if byte = 0x2E then
      !(lexeme.takeWhile isDigit).isEmpty && isExp (lexeme.dropWhile isDigit)
    else isExp (byte :: lexeme)

/-- A number without its sign. -/
def isUnsigned : List UInt8 → Bool
  | [] => false
  | byte :: lexeme =>
    if byte = 0x30 then isFracExp lexeme
    else isDigit byte && isFracExp (lexeme.dropWhile isDigit)

def isNumber : List UInt8 → Bool
  | [] => false
  | byte :: lexeme => if byte = 0x2D then isUnsigned lexeme else isUnsigned (byte :: lexeme)

def trueLexeme : List UInt8 := [0x74, 0x72, 0x75, 0x65]
def falseLexeme : List UInt8 := [0x66, 0x61, 0x6C, 0x73, 0x65]
def nullLexeme : List UInt8 := [0x6E, 0x75, 0x6C, 0x6C]

def literals : List (List UInt8) := [trueLexeme, falseLexeme, nullLexeme]

/-- The dialect of the standard. -/
def standard : Dialect where
  plain c := 0x20 ≤ c.toNat
  hex := hexFrom 0
  scalar lexeme _ := lexeme ∈ literals ∨ isNumber lexeme = true

/-! ## The bytes of a number -/

def isNumberByte (byte : UInt8) : Bool :=
  isDigit byte || byte == 0x2B || byte == 0x2D || byte == 0x2E || byte == 0x45 || byte == 0x65

theorem isNumberByte_of_isDigit {byte : UInt8} (h : isDigit byte = true) :
    isNumberByte byte = true := by
  simp [isNumberByte, h]

theorem allDigits_bytes {lexeme : List UInt8} (h : allDigits lexeme = true) :
    ∀ byte ∈ lexeme, isNumberByte byte = true := by
  simp only [allDigits, Bool.and_eq_true, List.all_eq_true] at h
  exact fun byte hb => isNumberByte_of_isDigit (h.2 byte hb)

theorem isExponent_bytes {lexeme : List UInt8} (h : isExponent lexeme = true) :
    ∀ byte ∈ lexeme, isNumberByte byte = true := by
  cases lexeme with
  | nil => cases h
  | cons first lexeme =>
    rw [isExponent] at h
    split at h
    · next hsign =>
      refine List.forall_mem_cons.mpr ⟨?_, allDigits_bytes h⟩
      rcases hsign with rfl | rfl <;> rfl
    · exact allDigits_bytes h

theorem isExp_bytes {lexeme : List UInt8} (h : isExp lexeme = true) :
    ∀ byte ∈ lexeme, isNumberByte byte = true := by
  cases lexeme with
  | nil => exact nofun
  | cons first lexeme =>
    simp only [isExp, Bool.and_eq_true, Bool.or_eq_true, beq_iff_eq] at h
    refine List.forall_mem_cons.mpr ⟨?_, isExponent_bytes h.2⟩
    rcases h.1 with rfl | rfl <;> rfl

/-- Digits, and what is read behind them. -/
theorem digits_bytes {lexeme : List UInt8}
    (h : ∀ byte ∈ lexeme.dropWhile isDigit, isNumberByte byte = true) :
    ∀ byte ∈ lexeme, isNumberByte byte = true := by
  intro byte hb
  rw [← @List.takeWhile_append_dropWhile _ isDigit lexeme] at hb
  rcases List.mem_append.mp hb with hb | hb
  · exact isNumberByte_of_isDigit (List.all_eq_true.mp List.all_takeWhile byte hb)
  · exact h byte hb

theorem isFracExp_bytes {lexeme : List UInt8} (h : isFracExp lexeme = true) :
    ∀ byte ∈ lexeme, isNumberByte byte = true := by
  cases lexeme with
  | nil => exact nofun
  | cons first lexeme =>
    rw [isFracExp] at h
    split at h
    · next hpoint =>
      rw [Bool.and_eq_true] at h
      subst hpoint
      exact List.forall_mem_cons.mpr ⟨rfl, digits_bytes (isExp_bytes h.2)⟩
    · exact isExp_bytes h

theorem isUnsigned_bytes {lexeme : List UInt8} (h : isUnsigned lexeme = true) :
    ∀ byte ∈ lexeme, isNumberByte byte = true := by
  cases lexeme with
  | nil => cases h
  | cons first lexeme =>
    rw [isUnsigned] at h
    split at h
    · next hzero =>
      subst hzero
      exact List.forall_mem_cons.mpr ⟨rfl, isFracExp_bytes h⟩
    · rw [Bool.and_eq_true] at h
      exact List.forall_mem_cons.mpr
        ⟨isNumberByte_of_isDigit h.1, digits_bytes (isFracExp_bytes h.2)⟩

theorem isNumber_bytes {lexeme : List UInt8} (h : isNumber lexeme = true) :
    lexeme ≠ [] ∧ ∀ byte ∈ lexeme, isNumberByte byte = true := by
  cases lexeme with
  | nil => cases h
  | cons first lexeme =>
    refine ⟨List.cons_ne_nil first lexeme, ?_⟩
    rw [isNumber] at h
    split at h
    · next hminus =>
      subst hminus
      exact List.forall_mem_cons.mpr ⟨rfl, isUnsigned_bytes h⟩
    · exact isUnsigned_bytes h

end SupraHarness.Json
