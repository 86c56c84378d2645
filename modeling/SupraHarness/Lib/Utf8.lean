import Mathlib.Algebra.Group.Int.Defs
import Mathlib.Algebra.Group.Nat.Defs
import Mathlib.Algebra.GroupWithZero.Nat
import Mathlib.Data.List.Basic

/-!
# UTF-8

Byte strings that are the encoding of a list of characters. The encoding of a character starts
with a byte that is no continuation byte and goes on with bytes that are, so a valid string may be
cut in front of any byte that is no continuation byte, and nowhere else.
-/
namespace SupraHarness.Utf8

-- what holds of the members of a list is decided by walking the list
instance (priority := 2000) decidableMembers {α : Type} (p : α → Prop) [DecidablePred p] (l : List α) :
    Decidable (∀ a ∈ l, p a) := List.decidableBAll p l

-- texts and lists of texts are compared by their characters, with one proof of it for every definition
instance lawfulText : LawfulBEq (List Char) := inferInstance

instance lawfulTexts : LawfulBEq (List (List Char)) := inferInstance

def encode (cs : List Char) : List UInt8 := cs.flatMap String.utf8EncodeChar

def Valid (bytes : List UInt8) : Prop := ∃ cs, encode cs = bytes

def continuation (byte : UInt8) : Bool := 0x80 ≤ byte && byte ≤ 0xBF

/-- A string that does not start in the middle of a character. -/
def startsWhole (bytes : List UInt8) : Prop := ∀ byte ∈ bytes.head?, continuation byte = false

@[simp] theorem encode_nil : encode [] = [] := rfl

@[simp] theorem encode_cons (c : Char) (cs : List Char) :
    encode (c :: cs) = String.utf8EncodeChar c ++ encode cs := rfl

@[simp] theorem encode_append (cs ds : List Char) : encode (cs ++ ds) = encode cs ++ encode ds := by
  simp [encode]

theorem continuation_ofNat {n : Nat} (h : n < 256) :
    continuation (UInt8.ofNat n) = true ↔ 128 ≤ n ∧ n ≤ 191 := by
  simp only [continuation, Bool.and_eq_true, decide_eq_true_eq, UInt8.le_iff_toNat_le,
    UInt8.toNat_ofNat', UInt8.reduceToNat]
  omega

theorem toNat_lt (c : Char) : c.val.toNat < 0x110000 := by
  have := c.valid
  simp only [UInt32.isValidChar, Nat.isValidChar] at this
  omega

/-- One byte that is no continuation byte, and then continuation bytes. -/
theorem utf8EncodeChar_shape (c : Char) :
    ∃ lead rest, String.utf8EncodeChar c = lead :: rest ∧ continuation lead = false ∧
      ∀ byte ∈ rest, continuation byte = true := by
  have hlt := toNat_lt c
  have hlead : ∀ {n : Nat}, n < 256 → ¬ (128 ≤ n ∧ n ≤ 191) →
      continuation (UInt8.ofNat n) = false := by
    intro n hn h
    rw [← Bool.not_eq_true, continuation_ofNat hn]
    exact h
  have hrest : ∀ n : Nat, continuation (UInt8.ofNat (n % 64 + 128)) = true := by
    intro n
    rw [continuation_ofNat (by omega)]
    omega
  simp only [String.utf8EncodeChar]
  split_ifs
  · exact ⟨_, _, rfl, hlead (by omega) (by omega), nofun⟩
  · refine ⟨_, _, rfl, hlead (by omega) (by omega), ?_⟩
    exact List.forall_mem_singleton.2 (hrest _)
  · refine ⟨_, _, rfl, hlead (by omega) (by omega), ?_⟩
    exact List.forall_mem_cons.2 ⟨hrest _, List.forall_mem_singleton.2 (hrest _)⟩
  · refine ⟨_, _, rfl, hlead (by omega) (by omega), ?_⟩
    exact List.forall_mem_cons.2
      ⟨hrest _, List.forall_mem_cons.2 ⟨hrest _, List.forall_mem_singleton.2 (hrest _)⟩⟩

theorem utf8EncodeChar_ascii {c : Char} (h : c.toNat < 0x80) :
    String.utf8EncodeChar c = [UInt8.ofNat c.toNat] := by
  have hval : c.val.toNat ≤ 0x7F := Nat.lt_succ_iff.mp h
  simp only [String.utf8EncodeChar, if_pos hval]
  rfl

/-- A character that is not ASCII is encoded by bytes that are not either. -/
theorem utf8EncodeChar_wide {c : Char} (h : 0x80 ≤ c.toNat) :
    ∃ lead rest, String.utf8EncodeChar c = lead :: rest ∧ 0x80 ≤ lead := by
  have hlt := toNat_lt c
  have hval : ¬ c.val.toNat ≤ 0x7F := by
    have : c.toNat = c.val.toNat := rfl
    omega
  have hlead : ∀ {n : Nat}, n < 256 → 128 ≤ n → 0x80 ≤ UInt8.ofNat n := by
    intro n hn hle
    rw [UInt8.le_iff_toNat_le, UInt8.toNat_ofNat', Nat.mod_eq_of_lt hn]
    exact hle
  simp only [String.utf8EncodeChar, if_neg hval]
  split_ifs
  · exact ⟨_, _, rfl, hlead (by omega) (by omega)⟩
  · exact ⟨_, _, rfl, hlead (by omega) (by omega)⟩
  · exact ⟨_, _, rfl, hlead (by omega) (by omega)⟩

/-- The ASCII bytes of encoded text are its ASCII characters. -/
theorem mem_of_mem_encode {cs : List Char} {byte : UInt8} (hbyte : byte < 0x80) (h : byte ∈ encode cs) :
    Char.ofNat byte.toNat ∈ cs := by
  simp only [encode, List.mem_flatMap] at h
  obtain ⟨c, hc, hmem⟩ := h
  by_cases hascii : c.toNat < 0x80
  · rw [utf8EncodeChar_ascii hascii, List.mem_singleton] at hmem
    subst hmem
    rw [UInt8.toNat_ofNat', Nat.mod_eq_of_lt (by omega), Char.ofNat_toNat]
    exact hc
  · exfalso
    obtain ⟨lead, rest, hshape, -, hrest⟩ := utf8EncodeChar_shape c
    obtain ⟨lead', rest', hwide, hlead⟩ := utf8EncodeChar_wide (Nat.not_lt.mp hascii)
    rw [hshape, List.cons.injEq] at hwide
    rw [hshape, List.mem_cons] at hmem
    rcases hmem with rfl | hmem
    · rw [hwide.1] at hbyte
      exact absurd hbyte (UInt8.not_lt.mpr hlead)
    · have hcont := hrest byte hmem
      simp only [continuation, Bool.and_eq_true, decide_eq_true_eq] at hcont
      exact absurd hbyte (UInt8.not_lt.mpr hcont.1)

theorem utf8EncodeChar_ne_nil (c : Char) : String.utf8EncodeChar c ≠ [] := by
  obtain ⟨lead, rest, h, -⟩ := utf8EncodeChar_shape c
  simp [h]

theorem valid_nil : Valid [] := ⟨[], rfl⟩

theorem Valid.append {a b : List UInt8} (ha : Valid a) (hb : Valid b) : Valid (a ++ b) := by
  obtain ⟨cs, rfl⟩ := ha
  obtain ⟨ds, rfl⟩ := hb
  exact ⟨cs ++ ds, encode_append cs ds⟩

theorem Valid.startsWhole {bytes : List UInt8} (h : Valid bytes) : startsWhole bytes := by
  obtain ⟨cs, rfl⟩ := h
  cases cs with
  | nil => simp [Utf8.startsWhole]
  | cons c cs =>
    obtain ⟨lead, rest, hc, hlead, -⟩ := utf8EncodeChar_shape c
    simp [Utf8.startsWhole, hc, hlead]

/-- A valid string cut in front of a byte that is no continuation byte leaves two valid strings. -/
theorem Valid.split {a b : List UInt8} (h : Valid (a ++ b)) (hb : Utf8.startsWhole b) :
    Valid a ∧ Valid b := by
  obtain ⟨cs, hcs⟩ := h
  induction cs generalizing a with
  | nil =>
    obtain ⟨rfl, rfl⟩ := List.append_eq_nil_iff.1 hcs.symm
    exact ⟨valid_nil, valid_nil⟩
  | cons c cs ih =>
    rw [encode_cons] at hcs
    rcases List.append_eq_append_iff.1 hcs with ⟨a', rfl, hrest⟩ | ⟨b', hc, rfl⟩
    · obtain ⟨ha', hb'⟩ := ih hrest
      exact ⟨Valid.append ⟨[c], by simp⟩ ha', hb'⟩
    · cases b' with
      | nil =>
        rw [List.append_nil] at hc
        exact ⟨⟨[c], by simpa using hc⟩, ⟨cs, rfl⟩⟩
      | cons byte b' =>
        cases a with
        | nil => exact ⟨valid_nil, ⟨c :: cs, by rw [encode_cons, hc]; rfl⟩⟩
        | cons lead' a =>
          obtain ⟨lead, rest, hshape, -, hall⟩ := utf8EncodeChar_shape c
          rw [hshape, List.cons_append, List.cons.injEq] at hc
          have hcont : continuation byte = true := hall byte (by simp [hc.2])
          have hwhole : continuation byte = false := hb byte (by simp)
          rw [hcont] at hwhole
          cases hwhole

theorem Valid.take {bytes : List UInt8} (h : Valid bytes) {n : Nat}
    (hn : Utf8.startsWhole (bytes.drop n)) : Valid (bytes.take n) :=
  (Valid.split (a := bytes.take n) (by rwa [List.take_append_drop]) hn).1

theorem Valid.drop {bytes : List UInt8} (h : Valid bytes) {n : Nat}
    (hn : Utf8.startsWhole (bytes.drop n)) : Valid (bytes.drop n) :=
  (Valid.split (a := bytes.take n) (by rwa [List.take_append_drop]) hn).2

end SupraHarness.Utf8
