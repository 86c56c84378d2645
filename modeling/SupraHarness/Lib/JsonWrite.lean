import SupraHarness.Lib.JsonGrammar

/-!
# Writing JSON

The compact text of a tree: nothing between the tokens, and in strings the shortest escapes. What is
written is a text of the standard dialect, and it is that tree.
-/
namespace SupraHarness.Json

open Utf8 (encode encode_cons encode_append)

/-! ## Strings -/

/-- A character of a string, escaped if it has to be. -/
def escapeChar (c : Char) : List Char :=
  if c = '"' then ['\\', '"']
  else if c = '\\' then ['\\', '\\']
  else if c = '\x08' then ['\\', 'b']
  else if c = '\x0C' then ['\\', 'f']
  else if c = '\n' then ['\\', 'n']
  else if c = '\r' then ['\\', 'r']
  else if c = '\t' then ['\\', 't']
  else if c.toNat < 0x20 then
    ['\\', 'u', '0', '0', Nat.digitChar (c.toNat / 16), Nat.digitChar (c.toNat % 16)]
  else [c]

def quoted (cs : List Char) : List Char := '"' :: (cs.flatMap escapeChar ++ ['"'])

/-- The four bytes of the escape of a control character. -/
theorem hexFrom_control : ∀ n < 0x20,
    (encode ['0', '0', Nat.digitChar (n / 16), Nat.digitChar (n % 16)]).length = 4 ∧
      hexFrom 0 (encode ['0', '0', Nat.digitChar (n / 16), Nat.digitChar (n % 16)]) = some n ∧
      isHigh n = false ∧ isLow n = false := by decide

theorem ch_escapeChar (c : Char) (rest : List UInt8) :
    Ch standard (encode (escapeChar c) ++ rest) c rest := by
  unfold escapeChar
  split_ifs with h₁ h₂ h₃ h₄ h₅ h₆ h₇ hcontrol
  · subst h₁
    exact .short 0x22 _ rest rfl
  · subst h₂
    exact .short 0x5C _ rest rfl
  · subst h₃
    exact .short 0x62 _ rest rfl
  · subst h₄
    exact .short 0x66 _ rest rfl
  · subst h₅
    exact .short 0x6E _ rest rfl
  · subst h₆
    exact .short 0x72 _ rest rfl
  · subst h₇
    exact .short 0x74 _ rest rfl
  · obtain ⟨hlen, hhex, hhigh, hlow⟩ := hexFrom_control c.toNat hcontrol
    have hch := Ch.code (D := standard) _ c.toNat rest hlen hhex hhigh hlow
    rw [Char.ofNat_toNat] at hch
    exact hch
  · rw [encode_cons, Utf8.encode_nil, List.append_nil]
    exact .plain c rest (decide_eq_true (Nat.not_lt.mp hcontrol)) h₁ h₂

theorem chars_escape (cs : List Char) (rest : List UInt8) :
    Chars standard (encode (cs.flatMap escapeChar) ++ 0x22 :: rest) cs rest := by
  induction cs with
  | nil => exact .nil rest
  | cons c cs ih =>
    rw [List.flatMap_cons, encode_append, List.append_assoc]
    exact .cons (ch_escapeChar c _) ih

theorem encode_quoted (cs : List Char) (rest : List UInt8) :
    encode (quoted cs) ++ rest = 0x22 :: (encode (cs.flatMap escapeChar) ++ 0x22 :: rest) := by
  rw [quoted, encode_cons, encode_append, List.append_assoc, List.append_assoc]
  rfl

/-! ## Numbers -/

/-- The number that decimal digits spell. -/
def digitsValue (lexeme : List UInt8) : Nat :=
  Nat.ofDigitChars 10 (lexeme.map fun byte => Char.ofNat byte.toNat) 0

/-- The digits of a number, as bytes. -/
def digits (n : Nat) : List UInt8 := (Nat.toDigits 10 n).map fun c => UInt8.ofNat c.toNat

theorem toNat_digit {n : Nat} {c : Char} (h : c ∈ Nat.toDigits 10 n) : 48 ≤ c.toNat ∧ c.toNat ≤ 57 := by
  have hdigit := Nat.isDigit_of_mem_toDigits (by omega) (by omega) h
  simp only [Char.isDigit, Bool.and_eq_true, decide_eq_true_eq, UInt32.le_iff_toNat_le, ge_iff_le] at hdigit
  exact hdigit

theorem encode_toDigits (n : Nat) : encode (Nat.toDigits 10 n) = digits n := by
  have hascii : ∀ cs : List Char, (∀ c ∈ cs, c.toNat < 0x80) → encode cs = cs.map fun c => UInt8.ofNat c.toNat := by
    intro cs
    induction cs with
    | nil => exact fun _ => rfl
    | cons c cs ih =>
      intro h
      obtain ⟨hc, hcs⟩ := List.forall_mem_cons.mp h
      rw [encode_cons, Utf8.utf8EncodeChar_ascii hc, ih hcs]
      rfl
  apply hascii
  intro c hc
  have := (toNat_digit hc).2
  omega

theorem digitsValue_digits (n : Nat) : digitsValue (digits n) = n := by
  have hchars : (digits n).map (fun byte => Char.ofNat byte.toNat) = Nat.toDigits 10 n := by
    rw [digits, List.map_map]
    conv_rhs => rw [← List.map_id (Nat.toDigits 10 n)]
    apply List.map_congr_left
    intro c hc
    have := (toNat_digit hc).2
    simp only [Function.comp, id]
    rw [UInt8.toNat_ofNat', Nat.mod_eq_of_lt (by omega), Char.ofNat_toNat]
  rw [digitsValue, hchars, Nat.ofDigitChars_ten_toDigits]

theorem isDigit_digits (n : Nat) : ∀ byte ∈ digits n, isDigit byte = true := by
  intro byte hbyte
  obtain ⟨c, hc, rfl⟩ := List.mem_map.mp hbyte
  obtain ⟨hlow, hhigh⟩ := toNat_digit hc
  simp only [isDigit, Bool.and_eq_true, decide_eq_true_eq, UInt8.le_iff_toNat_le, UInt8.toNat_ofNat']
  rw [Nat.mod_eq_of_lt (by omega)]
  exact ⟨hlow, hhigh⟩

theorem digits_ne_nil (n : Nat) : digits n ≠ [] := by
  rw [digits, ne_eq, List.map_eq_nil_iff]
  exact Nat.toDigits_ne_nil

theorem allDigits_digits (n : Nat) : allDigits (digits n) = true := by
  rw [allDigits, Bool.and_eq_true, Bool.not_eq_true', List.isEmpty_eq_false_iff]
  exact ⟨digits_ne_nil n, List.all_eq_true.mpr (isDigit_digits n)⟩

/-- The first digit of a number is zero for zero only. -/
theorem head_toDigits {n : Nat} (h : 0 < n) : (Nat.toDigits 10 n).head? ≠ some '0' := by
  induction n using Nat.strongRecOn with
  | ind n ih =>
    by_cases hlt : n < 10
    · have hall : ∀ n < 10, 0 < n → [n.digitChar].head? ≠ some '0' := by decide
      rw [Nat.toDigits_of_lt_base hlt]
      exact hall n hlt h
    · rw [Nat.toDigits_of_base_le (by omega) (Nat.not_lt.mp hlt),
        List.head?_append_of_ne_nil _ Nat.toDigits_ne_nil]
      exact ih (n / 10) (by omega) (by omega)

theorem isUnsigned_digits (n : Nat) : isUnsigned (digits n) = true := by
  by_cases hn : n = 0
  · subst hn
    decide
  · have hhead := head_toDigits (Nat.pos_of_ne_zero hn)
    have hdigit := isDigit_digits n
    have hbound : ∀ c ∈ Nat.toDigits 10 n, c.toNat ≤ 57 := fun c hc => (toNat_digit hc).2
    rw [digits] at hdigit ⊢
    cases hshape : Nat.toDigits 10 n with
    | nil => exact absurd hshape Nat.toDigits_ne_nil
    | cons c cs =>
      rw [hshape] at hhead hdigit hbound
      rw [List.map_cons] at hdigit ⊢
      obtain ⟨hfirst, hmore⟩ := List.forall_mem_cons.mp hdigit
      have hne : UInt8.ofNat c.toNat ≠ 0x30 := by
        intro heq
        have hval := congrArg UInt8.toNat heq
        have hc := hbound c List.mem_cons_self
        rw [UInt8.toNat_ofNat', Nat.mod_eq_of_lt (by omega)] at hval
        exact hhead (congrArg some (Char.toNat_inj.mp hval))
      have hall := @List.dropWhile_append_of_pos _ isDigit _ [] hmore
      rw [List.append_nil] at hall
      rw [isUnsigned, if_neg hne, hfirst, hall]
      rfl

theorem isNumber_digits (n : Nat) : isNumber (digits n) = true := by
  have hunsigned := isUnsigned_digits n
  have hdigit := isDigit_digits n
  cases hshape : digits n with
  | nil => exact absurd hshape (digits_ne_nil n)
  | cons byte bytes =>
    rw [hshape] at hunsigned hdigit
    rw [isNumber, if_neg]
    · exact hunsigned
    · rintro rfl
      cases hdigit 0x2D List.mem_cons_self

theorem isNumber_minus (n : Nat) : isNumber (0x2D :: digits n) = true := by
  rw [isNumber, if_pos rfl]
  exact isUnsigned_digits n

/-! ## Trees -/

namespace Raw

mutual

def write : Raw → List UInt8
  | scalar lexeme => lexeme
  | string cs => encode (quoted cs)
  | array items => 0x5B :: ([0x2C].intercalate (writeItems items) ++ [0x5D])
  | object items => 0x7B :: ([0x2C].intercalate (writeMembers items) ++ [0x7D])

def writeItems : List Raw → List (List UInt8)
  | [] => []
  | raw :: raws => write raw :: writeItems raws

def writeMembers : List (List Char × Raw) → List (List UInt8)
  | [] => []
  | (key, raw) :: items => (encode (quoted key) ++ 0x3A :: write raw) :: writeMembers items

end

mutual

/-- The scalars of the tree are those of the standard. -/
def Standard : Raw → Prop
  | scalar lexeme => standard.scalar lexeme []
  | string _ => True
  | array items => StandardItems items
  | object items => StandardMembers items

def StandardItems : List Raw → Prop
  | [] => True
  | raw :: raws => Standard raw ∧ StandardItems raws

def StandardMembers : List (List Char × Raw) → Prop
  | [] => True
  | (_, raw) :: items => Standard raw ∧ StandardMembers items

end

mutual

/-- The tree has no more than so many containers inside one another. -/
def nested : Raw → Nat → Bool
  | scalar _, _ => true
  | string _, _ => true
  | array _, 0 => false
  | array items, n + 1 => nestedItems items n
  | object _, 0 => false
  | object items, n + 1 => nestedMembers items n

def nestedItems : List Raw → Nat → Bool
  | [], _ => true
  | raw :: raws, n => nested raw n && nestedItems raws n

def nestedMembers : List (List Char × Raw) → Nat → Bool
  | [], _ => true
  | (_, raw) :: items, n => nested raw n && nestedMembers items n

end

mutual

/-- The scalars of a tree. -/
def scalars : Raw → List (List UInt8)
  | scalar lexeme => [lexeme]
  | string _ => []
  | array items => scalarsItems items
  | object items => scalarsMembers items

def scalarsItems : List Raw → List (List UInt8)
  | [] => []
  | raw :: raws => scalars raw ++ scalarsItems raws

def scalarsMembers : List (List Char × Raw) → List (List UInt8)
  | [] => []
  | (_, raw) :: items => scalars raw ++ scalarsMembers items

end

/-- What holds of scalars and strings, and of the containers if it holds of what is in them. -/
theorem parts_induction {motive : Raw → Prop} (scalar : ∀ lexeme, motive (.scalar lexeme))
    (string : ∀ cs, motive (.string cs)) (array : ∀ raws, (∀ raw ∈ raws, motive raw) → motive (.array raws))
    (object : ∀ members, (∀ member ∈ members, motive member.2) → motive (.object members)) (raw : Raw) : motive raw :=
  @Raw.rec motive (fun raws => ∀ raw ∈ raws, motive raw) (fun members => ∀ member ∈ members, motive member.2)
    (fun member => motive member.2) scalar string array object nofun
    (fun _ _ hraw hraws => List.forall_mem_cons.mpr ⟨hraw, hraws⟩) nofun
    (fun _ _ hmember hmembers => List.forall_mem_cons.mpr ⟨hmember, hmembers⟩) (fun _ _ hraw => hraw) raw

theorem reads_elements {raw : Raw} {raws : List Raw} (hwritten : ∀ rest, Reads standard .value (write raw ++ rest) raw rest)
    (hmore : raws ≠ [] → ∀ rest, Reads standard .elements ([0x2C].intercalate (writeItems raws) ++ 0x5D :: rest)
      (.array raws) rest) (rest : List UInt8) :
    Reads standard .elements ([0x2C].intercalate (writeItems (raw :: raws)) ++ 0x5D :: rest) (.array (raw :: raws)) rest := by
  cases raws with
  | nil =>
    rw [writeItems, writeItems, List.intercalate_singleton]
    exact .lastElement (ws_refl _) (hwritten _) (ws_refl _)
  | cons raw' raws =>
    have hnext := hmore (List.cons_ne_nil _ _) rest
    rw [writeItems, List.intercalate_cons_of_ne_nil (by rw [writeItems]; exact List.cons_ne_nil _ _),
      List.append_assoc, List.append_assoc]
    exact .element (ws_refl _) (hwritten _) (ws_refl _) hnext

theorem reads_members {key : List Char} {raw : Raw} {items : List (List Char × Raw)}
    (hwritten : ∀ rest, Reads standard .value (write raw ++ rest) raw rest)
    (hmore : items ≠ [] → ∀ rest, Reads standard .members ([0x2C].intercalate (writeMembers items) ++ 0x7D :: rest)
      (.object items) rest) (rest : List UInt8) :
    Reads standard .members ([0x2C].intercalate (writeMembers ((key, raw) :: items)) ++ 0x7D :: rest)
      (.object ((key, raw) :: items)) rest := by
  cases items with
  | nil =>
    rw [writeMembers, writeMembers, List.intercalate_singleton, List.append_assoc, encode_quoted]
    exact .lastMember (ws_refl _) (chars_escape key _) (ws_refl _) (ws_refl _) (hwritten _) (ws_refl _)
  | cons item items =>
    have hnext := hmore (List.cons_ne_nil _ _) rest
    rw [writeMembers, List.intercalate_cons_of_ne_nil (by rw [writeMembers]; exact List.cons_ne_nil _ _),
      List.append_assoc, List.append_assoc, List.append_assoc, encode_quoted]
    exact .member (ws_refl _) (chars_escape key _) (ws_refl _) (ws_refl _) (hwritten _) (ws_refl _) hnext

mutual

/-- What is written is read back, whatever follows. -/
theorem reads_write : ∀ (raw : Raw), raw.Standard → ∀ rest, Reads standard .value (write raw ++ rest) raw rest
  | scalar lexeme, h, rest => .scalar h
  | string cs, _, rest => by
    rw [write, encode_quoted]
    exact .string (chars_escape cs rest)
  | array [], _, rest => .emptyArray (ws_refl _)
  | array (raw :: raws), h, rest => by
    rw [write, List.cons_append, List.append_assoc]
    exact .array (reads_writeItems (raw :: raws) h (List.cons_ne_nil raw raws) rest)
  | object [], _, rest => .emptyObject (ws_refl _)
  | object (item :: items), h, rest => by
    rw [write, List.cons_append, List.append_assoc]
    exact .object (reads_writeMembers (item :: items) h (List.cons_ne_nil item items) rest)

theorem reads_writeItems : ∀ (raws : List Raw), StandardItems raws → raws ≠ [] → ∀ rest,
    Reads standard .elements ([0x2C].intercalate (writeItems raws) ++ 0x5D :: rest) (.array raws) rest
  | [], _, hne, _ => absurd rfl hne
  | raw :: raws, h, _, rest => reads_elements (reads_write raw h.1) (reads_writeItems raws h.2) rest

theorem reads_writeMembers : ∀ (items : List (List Char × Raw)), StandardMembers items → items ≠ [] → ∀ rest,
    Reads standard .members ([0x2C].intercalate (writeMembers items) ++ 0x7D :: rest) (.object items) rest
  | [], _, hne, _ => absurd rfl hne
  | (_, raw) :: items, h, _, rest => reads_members (reads_write raw h.1) (reads_writeMembers items h.2) rest

end

theorem text_write {raw : Raw} (h : raw.Standard) : Text standard (write raw) raw := by
  have hread := reads_write raw h []
  rw [List.append_nil] at hread
  exact ⟨_, [], ws_refl _, hread, ws_refl _⟩

end Raw

end SupraHarness.Json
