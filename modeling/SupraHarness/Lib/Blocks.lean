import Mathlib.Data.List.Basic

/-!
# Flat arrays of equal blocks

A flat list holds blocks of one width, back to back. A block is written in place, appended at the
end or cut off with everything after it; each of these leaves the other blocks as they are.
-/
namespace SupraHarness.Blocks

variable {α : Type*} {width p q n : Nat} {data code : List α}

def block (width : Nat) (data : List α) (p : Nat) : List α :=
  (data.drop (p * width)).take width

def setBlock (width : Nat) (data : List α) (p : Nat) (code : List α) : List α :=
  data.take (p * width) ++ code ++ data.drop ((p + 1) * width)

theorem getElem?_block (width : Nat) (data : List α) (p i : Nat) :
    (block width data p)[i]? = if i < width then data[p * width + i]? else none := by
  rw [block, List.getElem?_take, List.getElem?_drop]

/-- Two lists that agree where a block lies have the same block there. -/
theorem block_congr {other : List α} (h : ∀ i, i < width → data[p * width + i]? = other[q * width + i]?) :
    block width data p = block width other q := by
  apply List.ext_getElem?
  intro i
  rw [getElem?_block, getElem?_block]
  by_cases hi : i < width
  · rw [if_pos hi, if_pos hi, h i hi]
  · rw [if_neg hi, if_neg hi]

theorem mul_add_lt (h : p < n) {i : Nat} (hi : i < width) : p * width + i < n * width := by
  have hle := Nat.mul_le_mul_right width (Nat.succ_le_of_lt h)
  rw [Nat.succ_mul] at hle
  omega

theorem length_block (hdata : data.length = n * width) (h : p < n) : (block width data p).length = width := by
  have hle := Nat.mul_le_mul_right width (Nat.succ_le_of_lt h)
  rw [Nat.succ_mul] at hle
  rw [block, List.length_take, List.length_drop, hdata]
  omega

theorem length_setBlock (hdata : data.length = n * width) (hcode : code.length = width) (h : p < n) :
    (setBlock width data p code).length = n * width := by
  have hle := Nat.mul_le_mul_right width (Nat.succ_le_of_lt h)
  rw [Nat.succ_mul] at hle
  rw [setBlock, List.length_append, List.length_append, List.length_take, List.length_drop, hdata, hcode,
    Nat.add_mul]
  omega

theorem block_setBlock_self (hdata : data.length = n * width) (hcode : code.length = width) (h : p < n) :
    block width (setBlock width data p code) p = code := by
  have htake : (data.take (p * width)).length = p * width := by
    have hlt := Nat.mul_le_mul_right width (Nat.le_of_lt h)
    rw [List.length_take, hdata]
    omega
  have hdrop : (setBlock width data p code).drop (p * width) = code ++ data.drop ((p + 1) * width) := by
    rw [setBlock, List.append_assoc]
    exact List.drop_left' htake
  rw [block, hdrop, ← hcode, List.take_left]

theorem block_setBlock_ne (hdata : data.length = n * width) (hcode : code.length = width) (h : p < n)
    (hne : q ≠ p) : block width (setBlock width data p code) q = block width data q := by
  apply block_congr
  intro i hi
  have htake : (data.take (p * width)).length = p * width := by
    have hlt := Nat.mul_le_mul_right width (Nat.le_of_lt h)
    rw [List.length_take, hdata]
    omega
  rw [setBlock, List.append_assoc]
  by_cases hlt : q < p
  · have hindex := mul_add_lt hlt hi
    rw [List.getElem?_append_left (by omega), List.getElem?_take, if_pos hindex]
  · have hle := Nat.mul_le_mul_right width (show p + 1 ≤ q by omega)
    rw [Nat.add_mul] at hle
    rw [List.getElem?_append_right (by omega), List.getElem?_append_right (by omega),
      List.getElem?_drop, htake, hcode, Nat.add_mul]
    congr 1
    omega

theorem block_append_last (hdata : data.length = n * width) (hcode : code.length = width) :
    block width (data ++ code) n = code := by
  rw [block, ← hdata, List.drop_left, ← hcode, List.take_length]

theorem block_append_lt (hdata : data.length = n * width) (h : p < n) :
    block width (data ++ code) p = block width data p := by
  apply block_congr
  intro i hi
  have hindex := mul_add_lt h hi
  rw [List.getElem?_append_left (by omega)]

theorem block_take_lt (h : p < n) : block width (data.take (n * width)) p = block width data p := by
  apply block_congr
  intro i hi
  rw [List.getElem?_take, if_pos (mul_add_lt h hi)]

end SupraHarness.Blocks
