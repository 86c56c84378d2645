import SupraHarness.Lib.Code

/-!
# Identifiers

A ULID of one kind: 128 bits with the millisecond timestamp in the high 48.
The kinds are separate types over one representation. The text form is the
26-character Crockford base 32 encoding, the most significant digit first, and
it determines the identifier.
-/
namespace SupraHarness.Types

open SupraHarness.Code

inductive IdKind where
  | session | turn | agent | claim | segment | snapshot | finding
  deriving DecidableEq, Repr

/-- A ULID-backed identifier of one kind. -/
@[ext] structure Id (kind : IdKind) where
  raw : BitVec 128
  deriving DecidableEq, Repr

instance lawfulId {kind : IdKind} : LawfulBEq (Id kind) := inferInstance

abbrev TurnId := Id .turn
abbrev AgentId := Id .agent
abbrev ClaimId := Id .claim
abbrev SegmentId := Id .segment
abbrev SnapshotId := Id .snapshot

namespace Id

variable {kind : IdKind}

def nil : Id kind := ⟨0⟩

def isNil (id : Id kind) : Bool := id.raw == 0

def toU128 (id : Id kind) : Nat := id.raw.toNat

def fromU128 (raw : Nat) : Id kind := ⟨BitVec.ofNat 128 raw⟩

/-- Milliseconds since the Unix epoch, from the timestamp prefix. -/
def timestampMs (id : Id kind) : UInt64 := UInt64.ofNat (id.toU128 / 2 ^ 80)

/-- A new identifier, from the clock in milliseconds and eighty random bits. -/
def generate (now : BitVec 48) (random : BitVec 80) : Id kind := ⟨now ++ random⟩

/-- The sixteen bytes of `to_u128().to_le_bytes()`. -/
def leBytes (id : Id kind) : List UInt8 := Code.leBytes 16 id.toU128

def crockford : List Char := "0123456789ABCDEFGHJKMNPQRSTVWXYZ".toList

def digitChar (d : Nat) : Char := crockford.getD d '0'

/-- `Display`: the fixed-width Crockford text. -/
def text (id : Id kind) : String :=
  String.ofList ((Nat.digitsAppend 32 26 id.toU128).reverse.map digitChar)

@[simp] theorem fromU128_toU128 (id : Id kind) : fromU128 id.toU128 = id := by
  simp [fromU128, toU128]

theorem toU128_lt (id : Id kind) : id.toU128 < 2 ^ 128 := id.raw.isLt

theorem toU128_injective : Function.Injective (toU128 : Id kind → Nat) := by
  intro a b h
  rw [← fromU128_toU128 a, h, fromU128_toU128]

/-- Every identifier is generated at some clock reading and for some random bits. -/
theorem exists_generate (id : Id kind) : ∃ now random, id = generate now random := by
  refine ⟨id.raw.extractLsb' 80 48, id.raw.extractLsb' 0 80, ?_⟩
  apply Id.ext
  exact (@BitVec.extractLsb'_append_extractLsb' 48 80 id.raw).symm

theorem length_leBytes (id : Id kind) : id.leBytes.length = 16 := by
  apply Code.length_leBytes
  have h := id.toU128_lt
  omega

theorem leBytes_injective : Function.Injective (leBytes : Id kind → List UInt8) := by
  intro a b h
  exact toU128_injective (Code.leBytes_injective 16 h)

theorem digitChar_lt : ∀ d < 32, ∀ e < 32, d < e → digitChar d < digitChar e := by decide

/-- The text form is ordered as the value. -/
theorem text_lt {a b : Id kind} (h : a.toU128 < b.toU128) : a.text.toList < b.text.toList := by
  have hwide : ∀ id : Id kind, id.toU128 < 32 ^ 26 := by
    intro id
    have hlt := id.toU128_lt
    omega
  have hdigit : ∀ id : Id kind, ∀ d ∈ Nat.digitsAppend 32 26 id.toU128, d < 32 :=
    fun id d hd => Nat.lt_of_mem_digitsAppend (by decide) 26 d hd
  rw [text, text, String.toList_ofList, String.toList_ofList]
  apply Code.map_lt_map
  · intro d hd e he hde
    exact digitChar_lt d (hdigit a d (List.mem_reverse.mp hd)) e (hdigit b e (List.mem_reverse.mp he)) hde
  · apply Code.reverse_lt_of_ofDigits_lt (b := 32) (by decide)
    · rw [Nat.length_digitsAppend (by decide) 26 (hwide a), Nat.length_digitsAppend (by decide) 26 (hwide b)]
    · exact hdigit a
    · exact hdigit b
    · simpa only [Nat.digitsAppend, Nat.ofDigits_append_replicate_zero, Nat.ofDigits_digits] using h

/-- Identifiers are ordered by their value. -/
instance : Ord (Id kind) := ⟨fun a b => compare a.toU128 b.toU128⟩

instance : Std.TransOrd (Id kind) where
  eq_swap := Std.OrientedOrd.eq_swap (α := Nat)
  isLE_trans := Std.TransOrd.isLE_trans (α := Nat)

instance : Std.LawfulEqOrd (Id kind) where
  eq_of_compare h := toU128_injective (Std.LawfulEqOrd.eq_of_compare (α := Nat) h)

end Id

end SupraHarness.Types
