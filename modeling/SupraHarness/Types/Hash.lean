import SupraHarness.Types.Id

/-!
# Content hashing and the canonical encoding

The canonical writer hands the hasher a domain byte and then fields of the form
`tag | length (u64 LE) | bytes`. The hasher is a parameter: the writer keeps
the bytes that were fed to it. A sealable type is lawful when its encoding only
appends and can be split off the front of any longer stream.
-/
namespace SupraHarness.Types

open SupraHarness.Code

/-! ## Strings, vectors and digests -/

/-- UTF-8 text of at most `isize::MAX` bytes. -/
@[ext] structure Str where
  text : String
  fits : text.utf8ByteSize < 2 ^ 63
  deriving DecidableEq, Repr

/-- `as_bytes` -/
def Str.bytes (s : Str) : List UInt8 := s.text.toByteArray.data.toList

/-- `len`, in bytes. -/
def Str.len (s : Str) : Nat := s.text.utf8ByteSize

/-- A vector of at most `isize::MAX` elements. -/
@[ext] structure Vec (α : Type) where
  toList : List α
  fits : toList.length < 2 ^ 63
  deriving DecidableEq, Repr

@[ext] structure ContentHash where
  bytes : Vector UInt8 32
  deriving DecidableEq, Repr

theorem Str.length_bytes (s : Str) : s.bytes.length < 2 ^ 64 := by
  have h := s.fits
  have hl : s.bytes.length = s.text.utf8ByteSize := by
    simp [bytes]
  omega

theorem Str.bytes_injective : Function.Injective Str.bytes := by
  intro s t h
  apply Str.ext
  apply String.toByteArray_inj.mp
  exact ByteArray.ext (Array.toList_inj.mp h)

def hexDigit (d : Nat) : Char := "0123456789abcdef".toList.getD d '0'

/-- `Display`: sixty-four lowercase hex digits. -/
def ContentHash.text (hash : ContentHash) : String :=
  String.ofList (hash.bytes.toList.flatMap fun byte =>
    [hexDigit (byte.toNat / 16), hexDigit (byte.toNat % 16)])

/-! ## The canonical writer -/

/-- A hasher under construction, as the bytes it has been fed. -/
structure CanonicalWriter where
  fed : List UInt8
  deriving DecidableEq, Repr

/-- `to_le_bytes` of a `u64`. -/
def u64Bytes (value : UInt64) : List UInt8 := leBytes 8 value.toNat

/-- `u8::from` of a boolean. -/
def boolByte (value : Bool) : UInt8 := if value then 1 else 0

@[simp] theorem boolByte_inj {x y : Bool} : boolByte x = boolByte y ↔ x = y := by
  cases x <;> cases y <;> decide

namespace CanonicalWriter

def forKind (kind : UInt8) : CanonicalWriter := ⟨[kind]⟩

def update (w : CanonicalWriter) (value : List UInt8) : CanonicalWriter := ⟨w.fed ++ value⟩

def bytes (w : CanonicalWriter) (tag : UInt8) (value : List UInt8) : CanonicalWriter :=
  ((w.update [tag]).update (u64Bytes (UInt64.ofNat value.length))).update value

def str (w : CanonicalWriter) (tag : UInt8) (value : Str) : CanonicalWriter :=
  w.bytes tag value.bytes

def u64 (w : CanonicalWriter) (tag : UInt8) (value : UInt64) : CanonicalWriter :=
  w.bytes tag (u64Bytes value)

def u8 (w : CanonicalWriter) (tag value : UInt8) : CanonicalWriter :=
  w.bytes tag [value]

def bool (w : CanonicalWriter) (tag : UInt8) (value : Bool) : CanonicalWriter :=
  w.u8 tag (boolByte value)

def count (w : CanonicalWriter) (tag : UInt8) (len : Nat) : CanonicalWriter :=
  w.u64 tag (UInt64.ofNat len)

def optStr (w : CanonicalWriter) (tag : UInt8) (value : Option Str) : CanonicalWriter :=
  match value with
  | none => w.u8 tag 0
  | some text => (w.u8 tag 1).str tag text

def finish (blake3 : List UInt8 → ContentHash) (w : CanonicalWriter) : ContentHash :=
  blake3 w.fed

end CanonicalWriter

/-- A value with a fixed, hashable canonical encoding. -/
class Sealable (α : Type) where
  canonicalKind : UInt8
  writeCanonical : α → CanonicalWriter → CanonicalWriter

section Sealable

variable {α : Type} [Sealable α]

/-- The whole message the hasher is fed for a value. -/
def canonical (value : α) : List UInt8 :=
  (Sealable.writeCanonical value (.forKind (Sealable.canonicalKind α))).fed

/-- What writing the value appends to an encoding under way. -/
def body (value : α) : List UInt8 :=
  (Sealable.writeCanonical value ⟨[]⟩).fed

def CanonicalWriter.nested (w : CanonicalWriter) (tag : UInt8) (value : α) : CanonicalWriter :=
  Sealable.writeCanonical value (w.u8 tag (Sealable.canonicalKind α))

/-- `ContentHash::of` -/
def ContentHash.of (blake3 : List UInt8 → ContentHash) (value : α) : ContentHash :=
  (Sealable.writeCanonical value (.forKind (Sealable.canonicalKind α))).finish blake3

end Sealable

/-- The encoding only appends, and a value can be split off the front of any stream. -/
class LawfulSealable (α : Type) [Sealable α] : Prop where
  appends : ∀ (value : α) (w : CanonicalWriter),
    (Sealable.writeCanonical value w).fed = w.fed ++ body value
  prefixFree : PrefixFree (body : α → List UInt8)

/-! ## Fields -/

/-- One field: `tag | length | bytes`. -/
def field (tag : UInt8) (value : List UInt8) : List UInt8 :=
  tag :: (u64Bytes (UInt64.ofNat value.length) ++ value)

theorem u64Bytes_injective : Function.Injective u64Bytes := by
  intro a b h
  exact UInt64.toNat_inj.mp (leBytes_injective 8 h)

theorem length_u64Bytes (value : UInt64) : (u64Bytes value).length = 8 :=
  length_leBytes value.toNat_lt

/-- The eight bytes of a length. -/
def header (n : Nat) : List UInt8 := u64Bytes (UInt64.ofNat n)

/-- Lengths below `2 ^ 64` are read back from their header. -/
theorem prefixFree_header : PrefixFree fun n : Fin (2 ^ 64) => header n := by
  apply PrefixFree.of_length 8
  · intro n
    exact length_u64Bytes _
  · intro m n h
    have hmn := congrArg UInt64.toNat (u64Bytes_injective h)
    rw [UInt64.toNat_ofNat_of_lt' m.isLt, UInt64.toNat_ofNat_of_lt' n.isLt] at hmn
    exact Fin.ext hmn

theorem field_cancel {t u : UInt8} {x y r s : List UInt8} (hx : x.length < 2 ^ 64)
    (hy : y.length < 2 ^ 64) : field t x ++ r = field u y ++ s ↔ t = u ∧ x = y ∧ r = s := by
  have hframe := (PrefixFree.framed header prefixFree_header).cancel (a := ⟨x, hx⟩) (b := ⟨y, hy⟩)
    (r := r) (s := s)
  simp only [Subtype.mk.injEq] at hframe
  rw [field, field, List.cons_append, List.cons_append, List.cons.injEq, ← header, ← header, hframe]

@[simp] theorem str_cancel {t u : UInt8} {x y : Str} {r s : List UInt8} :
    field t x.bytes ++ r = field u y.bytes ++ s ↔ t = u ∧ x = y ∧ r = s := by
  rw [field_cancel x.length_bytes y.length_bytes, Str.bytes_injective.eq_iff]

@[simp] theorem u64_cancel {t u : UInt8} {x y : UInt64} {r s : List UInt8} :
    field t (u64Bytes x) ++ r = field u (u64Bytes y) ++ s ↔ t = u ∧ x = y ∧ r = s := by
  rw [field_cancel (by simp [length_u64Bytes]) (by simp [length_u64Bytes]),
    u64Bytes_injective.eq_iff]

@[simp] theorem u8_cancel {t u x y : UInt8} {r s : List UInt8} :
    field t [x] ++ r = field u [y] ++ s ↔ t = u ∧ x = y ∧ r = s := by
  rw [field_cancel (by simp) (by simp), List.singleton_inj]

@[simp] theorem id_cancel {k : IdKind} {t u : UInt8} {x y : Id k} {r s : List UInt8} :
    field t x.leBytes ++ r = field u y.leBytes ++ s ↔ t = u ∧ x = y ∧ r = s := by
  rw [field_cancel (by simp [Id.length_leBytes]) (by simp [Id.length_leBytes]),
    Id.leBytes_injective.eq_iff]

@[simp] theorem hash_cancel {t u : UInt8} {x y : ContentHash} {r s : List UInt8} :
    field t x.bytes.toList ++ r = field u y.bytes.toList ++ s ↔ t = u ∧ x = y ∧ r = s := by
  rw [field_cancel (by simp) (by simp), Vector.toList_inj, ContentHash.ext_iff]

/-- A vector behind its element count is read back element by element. -/
theorem vec_cancel {α : Type} {enc : α → List UInt8} (h : PrefixFree enc) {t : UInt8} {x y : Vec α}
    {r s : List UInt8} :
    field t (header x.toList.length) ++ (x.toList.flatMap enc ++ r) =
      field t (header y.toList.length) ++ (y.toList.flatMap enc ++ s) ↔ x = y ∧ r = s := by
  have hcount : PrefixFree fun n : Fin (2 ^ 63) => field t (header n) := by
    intro m n r s he
    obtain ⟨-, hmn, hrs⟩ := u64_cancel.mp he
    have hsize : ∀ k : Fin (2 ^ 63), k.val < UInt64.size := by
      intro k
      exact k.isLt.trans (by decide)
    have hmn := congrArg UInt64.toNat hmn
    rw [UInt64.toNat_ofNat_of_lt' (hsize m), UInt64.toNat_ofNat_of_lt' (hsize n)] at hmn
    exact ⟨Fin.ext hmn, hrs⟩
  have hvec := (PrefixFree.counted (fun n => field t (header n)) hcount h).cancel
    (a := ⟨x.toList, x.fits⟩) (b := ⟨y.toList, y.fits⟩) (r := r) (s := s)
  simp only [Subtype.mk.injEq, List.append_assoc] at hvec
  rw [hvec, Vec.ext_iff]

/-- What `opt_str` appends. -/
def optField (tag : UInt8) : Option Str → List UInt8
  | none => field tag [0]
  | some text => field tag [1] ++ field tag text.bytes

/-- The option marker keeps an absent string apart from an empty one. -/
@[simp] theorem optStr_cancel {t : UInt8} {x y : Option Str} {r s : List UInt8} :
    optField t x ++ r = optField t y ++ s ↔ x = y ∧ r = s := by
  cases x with
  | none => cases y with
    | none => simp [optField]
    | some y => simp [optField]
  | some x => cases y with
    | none => simp [optField]
    | some y => simp [optField]

/-! ## What each method appends -/

namespace CanonicalWriter

variable (w : CanonicalWriter) (tag : UInt8)

@[simp] theorem fed_bytes (value : List UInt8) : (w.bytes tag value).fed = w.fed ++ field tag value := by
  simp [bytes, update, field]

@[simp] theorem fed_str (value : Str) : (w.str tag value).fed = w.fed ++ field tag value.bytes := by
  simp [str]

@[simp] theorem fed_u64 (value : UInt64) :
    (w.u64 tag value).fed = w.fed ++ field tag (u64Bytes value) := by
  simp [u64]

@[simp] theorem fed_u8 (value : UInt8) : (w.u8 tag value).fed = w.fed ++ field tag [value] := by
  simp [u8]

@[simp] theorem fed_bool (value : Bool) :
    (w.bool tag value).fed = w.fed ++ field tag [boolByte value] := by
  simp [bool]

@[simp] theorem fed_count (len : Nat) :
    (w.count tag len).fed = w.fed ++ field tag (u64Bytes (UInt64.ofNat len)) := by
  simp [count]

@[simp] theorem fed_optStr (value : Option Str) :
    (w.optStr tag value).fed = w.fed ++ optField tag value := by
  cases value with
  | none => simp [optStr, optField]
  | some text => simp [optStr, optField]

variable {α : Type} [Sealable α] [LawfulSealable α]

@[simp] theorem fed_nested (value : α) :
    (w.nested tag value).fed = w.fed ++ field tag [Sealable.canonicalKind α] ++ body value := by
  rw [nested, LawfulSealable.appends, fed_u8]

end CanonicalWriter

section Lawful

variable {α : Type} [Sealable α] [LawfulSealable α]

theorem body_cancel {a b : α} {r s : List UInt8} : body a ++ r = body b ++ s ↔ a = b ∧ r = s :=
  LawfulSealable.prefixFree.cancel

/-- A message is its domain byte and then the body. -/
theorem canonical_eq (a : α) : canonical a = Sealable.canonicalKind α :: body a := by
  rw [canonical, LawfulSealable.appends]
  rfl

/-- The canonical encoding of a lawful type determines the value. -/
theorem canonical_injective : Function.Injective (canonical : α → List UInt8) := by
  intro a b h
  rw [canonical_eq, canonical_eq, List.cons.injEq] at h
  exact LawfulSealable.prefixFree.injective h.2

end Lawful

end SupraHarness.Types
