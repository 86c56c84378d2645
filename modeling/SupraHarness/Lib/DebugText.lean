import Mathlib.Data.Nat.Digits.Defs
import SupraHarness.Lib.Code
import SupraHarness.Lib.Scan

/-!
# Debug quoting

How the standard library's `Debug` writes a text: in quotes, a quote, a backslash and the control characters
that have a letter behind a backslash, and characters that are not printable by their numbers. Which these
are is up to the Unicode tables, and a parameter.
-/
namespace SupraHarness.DebugText

abbrev Text := List Char

/-- The letter behind the backslash. -/
def letter (c : Char) : Option Char :=
  if c = '\x00' then some '0'
  else if c = '\t' then some 't'
  else if c = '\r' then some 'r'
  else if c = '\n' then some 'n'
  else if c = '\\' then some '\\'
  else if c = '"' then some '"'
  else none

/-- The lower-case hexadecimal digits of a number above zero. -/
def hex (n : Nat) : Text := (Nat.digits 16 n).reverse.map Nat.digitChar

variable (numbered : Char → Bool)

/-- `char::escape_debug`, in a text. -/
def escape (c : Char) : Text :=
  match letter c with
  | some l => ['\\', l]
  | none => if numbered c then '\\' :: 'u' :: '\x7b' :: (hex c.toNat ++ ['\x7d']) else [c]

/-- `Debug` of a text. -/
def quote (text : Text) : Text := '"' :: (text.flatMap (escape numbered) ++ ['"'])

/-! ## What was escaped can be read back -/

theorem letter_injective {c d l : Char} (hc : letter c = some l) (hd : letter d = some l) : c = d := by
  have same := hc.trans hd.symm
  unfold letter at same hc
  split_ifs at same hc <;> first | (subst_vars; rfl) | exact absurd same (by decide) | cases hc

theorem letter_ne_u {c : Char} : letter c ≠ some 'u' := by
  unfold letter
  split_ifs <;> decide

theorem digitChar_injOn : Set.InjOn Nat.digitChar {d | d < 16} := by
  have all : ∀ d < 16, ∀ e < 16, Nat.digitChar d = Nat.digitChar e → d = e := by decide
  exact fun d hd e he same => all d hd e he same

theorem hex_injective : Function.Injective hex := by
  intro m n same
  have digits := Code.map_inj_of_injOn (digitChar_injOn.mono ?_) same
  · exact Nat.digits_inj_iff.1 (List.reverse_injective digits)
  · rintro d (mem | mem) <;> exact Nat.digits_lt_base (by omega) (List.mem_reverse.1 mem)

theorem brace_notMem_hex (n : Nat) : '\x7d' ∉ hex n := by
  intro mem
  obtain ⟨d, inside, equal⟩ := List.mem_map.1 mem
  have all : ∀ d < 16, Nat.digitChar d ≠ '\x7d' := by decide
  exact all d (Nat.digits_lt_base (by omega) (List.mem_reverse.1 inside)) equal

variable {numbered}

theorem escape_cases (numbered : Char → Bool) (c : Char) :
    (∃ l, letter c = some l ∧ escape numbered c = ['\\', l]) ∨
      (escape numbered c = '\\' :: 'u' :: '\x7b' :: (hex c.toNat ++ ['\x7d'])) ∨
        (c ≠ '\\' ∧ c ≠ '"' ∧ escape numbered c = [c]) := by
  rw [escape]
  cases named : letter c with
  | some l => exact .inl ⟨l, rfl, rfl⟩
  | none =>
    have backslash : c ≠ '\\' := by rintro rfl; cases named
    have quotes : c ≠ '"' := by rintro rfl; cases named
    dsimp only
    split_ifs
    · exact .inr (.inl rfl)
    · exact .inr (.inr ⟨backslash, quotes, rfl⟩)

theorem brace_ends {s t u v : Text} (hs : '\x7d' ∉ s) (ht : '\x7d' ∉ t)
    (same : s ++ ['\x7d'] ++ u = t ++ ['\x7d'] ++ v) : s = t ∧ u = v := by
  rw [List.append_assoc, List.append_assoc] at same
  exact Scan.before_unique hs ht same

/-- An escaped character can be split off the front of a longer text in one way. -/
theorem escape_prefixFree : Code.PrefixFree (escape numbered) := by
  intro c d r s same
  rcases escape_cases numbered c with ⟨l, named, ec⟩ | ec | ⟨backslash, -, ec⟩ <;>
    rcases escape_cases numbered d with ⟨m, named', ed⟩ | ed | ⟨backslash', -, ed⟩ <;>
      rw [ec, ed] at same <;> simp only [List.cons_append, List.nil_append, List.cons.injEq] at same
  · obtain ⟨-, rfl, rest⟩ := same
    exact ⟨letter_injective named named', rest⟩
  · obtain ⟨-, rfl, -⟩ := same
    exact absurd named letter_ne_u
  · exact absurd same.1.symm backslash'
  · obtain ⟨-, rfl, -⟩ := same
    exact absurd named' letter_ne_u
  · obtain ⟨numbers, rest⟩ := brace_ends (brace_notMem_hex _) (brace_notMem_hex _) same.2.2.2
    exact ⟨Char.toNat_inj.1 (hex_injective numbers), rest⟩
  · exact absurd same.1.symm backslash'
  · exact absurd same.1 backslash
  · exact absurd same.1 backslash
  · exact ⟨same.1, same.2⟩

theorem escape_ne_nil (c : Char) : escape numbered c ≠ [] := by
  rcases escape_cases numbered c with ⟨l, -, ec⟩ | ec | ⟨-, -, ec⟩ <;> rw [ec] <;> simp

/-- A quote comes out of a quote only. -/
theorem quote_notMem_escape {c : Char} (other : c ≠ '"') : '"' ∉ escape numbered c := by
  rw [escape]
  cases named : letter c with
  | some l =>
    have unquoted : l ≠ '"' := by
      rintro rfl
      exact other (letter_injective named rfl)
    simp [unquoted.symm]
  | none =>
    have plain : '"' ∉ hex c.toNat := by
      intro mem
      obtain ⟨d, inside, equal⟩ := List.mem_map.1 mem
      have all : ∀ d < 16, Nat.digitChar d ≠ '"' := by decide
      exact all d (Nat.digits_lt_base (by omega) (List.mem_reverse.1 inside)) equal
    dsimp only
    split_ifs
    · simp [plain]
    · simpa using other.symm

end SupraHarness.DebugText
