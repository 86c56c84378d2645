import Mathlib.Data.Nat.Bitwise
import Mathlib.Data.List.Basic

/-!
# Hamming distance

The number of bits in which two byte strings differ, and the same number from words: a word is
the little-endian number of some bytes, and the set bits of the exclusive or of two words are the
positions where their bytes differ.
-/
namespace SupraHarness.Hamming

/-- The set bits of a number of `width` bits. -/
def countOnes (width n : Nat) : Nat := (List.range width).countP fun i => n.testBit i

/-- The number of some bytes, the least significant first. -/
def fromLe : List UInt8 → Nat
  | [] => 0
  | b :: bytes => b.toNat + 256 * fromLe bytes

/-- Bit `i` of a byte string. -/
def bitAt (bytes : List UInt8) (i : Nat) : Bool := ((bytes[i / 8]?).getD 0).toNat.testBit (i % 8)

/-- The positions where two byte strings differ. -/
def hamming (left right : List UInt8) : Nat :=
  (List.range (8 * left.length)).countP fun i => bitAt left i != bitAt right i

/-- The bits of a number count part by part. -/
theorem countOnes_add (a b : Nat) {x : Nat} (hx : x < 2 ^ a) (y : Nat) :
    countOnes (a + b) (x + 2 ^ a * y) = countOnes a x + countOnes b y := by
  rw [countOnes, List.range_add, List.countP_append, List.countP_map, countOnes, countOnes]
  congr 1
  · apply List.countP_congr
    intro i hi
    rw [Nat.add_comm, Nat.testBit_two_pow_mul_add y hx, if_pos (List.mem_range.mp hi)]
  · apply List.countP_congr
    intro i _
    simp only [Function.comp_apply]
    rw [Nat.add_comm x, Nat.testBit_two_pow_mul_add y hx, if_neg (Nat.not_lt.mpr (Nat.le_add_right a i)),
      Nat.add_sub_cancel_left]

/-- The exclusive or works part by part. -/
theorem xor_parts {a x x' : Nat} (hx : x < 2 ^ a) (hx' : x' < 2 ^ a) (y y' : Nat) :
    (x + 2 ^ a * y) ^^^ (x' + 2 ^ a * y') = (x ^^^ x') + 2 ^ a * (y ^^^ y') := by
  apply Nat.eq_of_testBit_eq
  intro i
  rw [Nat.testBit_xor, Nat.add_comm x, Nat.add_comm x', Nat.add_comm (x ^^^ x'), Nat.testBit_two_pow_mul_add y hx,
    Nat.testBit_two_pow_mul_add y' hx', Nat.testBit_two_pow_mul_add _ (Nat.xor_lt_two_pow hx hx')]
  split
  · rw [Nat.testBit_xor]
  · rw [Nat.testBit_xor]

theorem hamming_nil (right : List UInt8) : hamming [] right = 0 := rfl

/-- The first bytes differ in the bits of their exclusive or. -/
theorem hamming_cons (a b : UInt8) (left right : List UInt8) :
    hamming (a :: left) (b :: right) = countOnes 8 (a.toNat ^^^ b.toNat) + hamming left right := by
  have hlen : 8 * (a :: left).length = 8 + 8 * left.length := by
    rw [List.length_cons]
    omega
  rw [hamming, hlen, List.range_add, List.countP_append, List.countP_map, countOnes, hamming]
  congr 1
  · apply List.countP_congr
    intro i hi
    have hlt := List.mem_range.mp hi
    rw [bitAt, bitAt, Nat.div_eq_of_lt hlt, Nat.mod_eq_of_lt hlt, Nat.testBit_xor]
    rfl
  · apply List.countP_congr
    intro i _
    have hdiv : (8 + i) / 8 = i / 8 + 1 := by omega
    have hmod : (8 + i) % 8 = i % 8 := by omega
    simp only [Function.comp_apply, bitAt, hdiv, hmod, List.getElem?_cons_succ]

theorem hamming_append {left left' : List UInt8} (right right' : List UInt8) (h : left.length = left'.length) :
    hamming (left ++ right) (left' ++ right') = hamming left left' + hamming right right' := by
  induction left generalizing left' with
  | nil =>
    obtain rfl := List.length_eq_zero_iff.mp h.symm
    rw [hamming_nil, Nat.zero_add]
    rfl
  | cons a left ih =>
    cases left' with
    | nil => cases h
    | cons b left' =>
      rw [List.cons_append, List.cons_append, hamming_cons, hamming_cons, ih (Nat.succ.inj h), Nat.add_assoc]

/-- Two words differ in as many bits as their bytes. -/
theorem countOnes_fromLe {left right : List UInt8} (h : left.length = right.length) :
    countOnes (8 * left.length) (fromLe left ^^^ fromLe right) = hamming left right := by
  induction left generalizing right with
  | nil => rfl
  | cons a left ih =>
    cases right with
    | nil => cases h
    | cons b right =>
      have hlen : 8 * (a :: left).length = 8 + 8 * left.length := by
        rw [List.length_cons]
        omega
      rw [hamming_cons, ← ih (Nat.succ.inj h), hlen, fromLe, fromLe]
      rw [← countOnes_add 8 _ (Nat.xor_lt_two_pow a.toNat_lt b.toNat_lt)]
      rw [← xor_parts a.toNat_lt b.toNat_lt]
      rfl

theorem hamming_le (left right : List UInt8) : hamming left right ≤ 8 * left.length := by
  have h := List.countP_le_length (p := fun i => bitAt left i != bitAt right i) (l := List.range (8 * left.length))
  rwa [List.length_range] at h

end SupraHarness.Hamming
