import SupraHarness.Lib.Blocks
import SupraHarness.Lib.Slots

/-!
# The resident code table

The codes of all entries in one flat array, the slots in the order of their
positions, and a map from each slot to its position. That the array is as long
as the slots need, and that the map finds every slot where it lies, are fields.
Removing an entry moves the last one into the hole.
-/
namespace SupraHarness.Vector

open SupraHarness.Blocks
open Std (ExtTreeMap)

/-- Binary codes of `stride` bytes, one for each slot. -/
structure CodeTable where
  stride : Nat
  data : List UInt8
  slots : List Int
  positions : ExtTreeMap Int Nat
  width : data.length = slots.length * stride
  located : ∀ (slot : Int) (p : Nat), positions[slot]? = some p ↔ slots[p]? = some slot

namespace CodeTable

theorem getElem?_insert (m : ExtTreeMap Int Nat) (a b : Int) (p : Nat) :
    (m.insert a p)[b]? = if b = a then some p else m[b]? := by
  rw [ExtTreeMap.getElem?_insert]
  by_cases h : b = a
  · rw [if_pos h, if_pos (by rw [h]; exact Std.ReflCmp.compare_self)]
  · rw [if_neg h, if_neg]
    intro hc
    exact h (Std.LawfulEqCmp.eq_of_compare hc).symm

theorem getElem?_erase (m : ExtTreeMap Int Nat) (a b : Int) :
    (m.erase a)[b]? = if b = a then none else m[b]? := by
  rw [ExtTreeMap.getElem?_erase]
  by_cases h : b = a
  · rw [if_pos h, if_pos (by rw [h]; exact Std.ReflCmp.compare_self)]
  · rw [if_neg h, if_neg]
    intro hc
    exact h (Std.LawfulEqCmp.eq_of_compare hc).symm

/-- Every slot lies at one position. -/
theorem nodup_slots (t : CodeTable) : t.slots.Nodup := by
  rw [List.nodup_iff_injective_getElem]
  intro i j hij
  have hi := (t.located _ i).mpr (List.getElem?_eq_getElem i.isLt)
  have hj := (t.located _ j).mpr (List.getElem?_eq_getElem j.isLt)
  simp only at hij
  rw [← hij, hi] at hj
  exact Fin.ext (Option.some.inj hj)

theorem lt_of_position {t : CodeTable} {slot : Int} {p : Nat} (h : t.positions[slot]? = some p) :
    p < t.slots.length :=
  (List.getElem?_eq_some_iff.mp ((t.located slot p).mp h)).1

/-- No position holds two slots. -/
theorem position_injective {t : CodeTable} {a b : Int} {p : Nat} (ha : t.positions[a]? = some p)
    (hb : t.positions[b]? = some p) : a = b := by
  rw [t.located] at ha hb
  rw [ha] at hb
  exact Option.some.inj hb

/-! ## The operations -/

/-- An empty table for codes of `stride` bytes. -/
def new (stride : Nat) : CodeTable where
  stride := stride
  data := []
  slots := []
  positions := ∅
  width := by simp
  located := by simp

/-- The table with one more entry at its end. -/
def push (t : CodeTable) (slot : Int) (code : List UInt8) (hcode : code.length = t.stride)
    (hnew : t.positions[slot]? = none) : CodeTable where
  stride := t.stride
  data := t.data ++ code
  slots := t.slots ++ [slot]
  positions := t.positions.insert slot t.slots.length
  width := by
    rw [List.length_append, List.length_append, t.width, hcode, Nat.add_mul, List.length_singleton,
      Nat.one_mul]
  located := by
    intro other p
    rw [getElem?_insert]
    by_cases hp : p < t.slots.length
    · rw [List.getElem?_append_left hp, ← t.located]
      by_cases ho : other = slot
      · rw [if_pos ho, ho, hnew]
        simp
        omega
      · rw [if_neg ho]
    · rw [List.getElem?_append_right (by omega)]
      have hfar : t.positions[other]? ≠ some p := by
        intro h
        exact hp (lt_of_position h)
      by_cases ho : other = slot
      · rw [if_pos ho, ho, Option.some.injEq]
        cases hd : p - t.slots.length with
        | zero => simp; omega
        | succ d => simp; omega
      · rw [if_neg ho]
        cases hd : p - t.slots.length with
        | zero => simpa [hfar] using fun h => ho h.symm
        | succ d => simpa using hfar

/-- The table with the code at position `p` replaced. -/
def overwrite (t : CodeTable) (p : Nat) (code : List UInt8) (hcode : code.length = t.stride)
    (hp : p < t.slots.length) : CodeTable :=
  { t with
    data := setBlock t.stride t.data p code
    width := length_setBlock t.width hcode hp }

/-- Add or replace one entry's code; a code of another width is refused. -/
def upsert (t : CodeTable) (slot : Int) (code : List UInt8) : CodeTable × Bool :=
  if hcode : code.length = t.stride then
    match hp : t.positions[slot]? with
    | some p => (t.overwrite p code hcode (lt_of_position hp), true)
    | none => (t.push slot code hcode hp, true)
  else (t, false)

theorem ne_nil_of_position {t : CodeTable} {slot : Int} {p : Nat} (h : t.positions[slot]? = some p) :
    t.slots ≠ [] := by
  intro hnil
  have hlt := lt_of_position h
  rw [hnil] at hlt
  cases hlt

theorem getElem?_last {t : CodeTable} (hslots : t.slots ≠ []) :
    t.slots[t.slots.length - 1]? = some (t.slots.getLast hslots) := by
  rw [← List.getLast?_eq_getElem?, List.getLast?_eq_some_getLast hslots]

/-- The table without its last entry. -/
def pop (t : CodeTable) (slot : Int) (h : t.positions[slot]? = some (t.slots.length - 1)) : CodeTable where
  stride := t.stride
  data := t.data.take ((t.slots.length - 1) * t.stride)
  slots := t.slots.dropLast
  positions := t.positions.erase slot
  width := by
    have hle := Nat.mul_le_mul_right t.stride (Nat.sub_le t.slots.length 1)
    rw [List.length_take, List.length_dropLast, t.width]
    omega
  located := by
    intro other q
    rw [getElem?_erase, List.dropLast_eq_take, List.getElem?_take]
    by_cases ho : other = slot
    · rw [if_pos ho, ho]
      by_cases hq : q < t.slots.length - 1
      · rw [if_pos hq, ← t.located, h, Option.some.injEq]
        simp
        omega
      · rw [if_neg hq]
        simp
    · rw [if_neg ho]
      by_cases hq : q < t.slots.length - 1
      · rw [if_pos hq, t.located]
      · rw [if_neg hq]
        constructor
        · intro hother
          have hlt := lt_of_position hother
          have heq : q = t.slots.length - 1 := by omega
          exact absurd (position_injective (heq ▸ hother) h) ho
        · intro hother
          cases hother

/-- The table with its last entry moved to position `p`, whose own entry is gone. -/
def fillHole (t : CodeTable) (slot : Int) (p : Nat) (h : t.positions[slot]? = some p)
    (hp : p ≠ t.slots.length - 1) : CodeTable where
  stride := t.stride
  data := (setBlock t.stride t.data p (block t.stride t.data (t.slots.length - 1))).take
    ((t.slots.length - 1) * t.stride)
  slots := (t.slots.set p (t.slots.getLast (ne_nil_of_position h))).dropLast
  positions := (t.positions.erase slot).insert (t.slots.getLast (ne_nil_of_position h)) p
  width := by
    have hlt := lt_of_position h
    have hle := Nat.mul_le_mul_right t.stride (Nat.sub_le t.slots.length 1)
    have hblock : (block t.stride t.data (t.slots.length - 1)).length = t.stride :=
      length_block t.width (by omega)
    rw [List.length_take, List.length_dropLast, List.length_set, length_setBlock t.width hblock hlt]
    omega
  located := by
    intro other q
    have hlt := lt_of_position h
    have hlast := getElem?_last (ne_nil_of_position h)
    have hmoved := (t.located _ _).mpr hlast
    rw [getElem?_insert, getElem?_erase, List.dropLast_eq_take, List.length_set, List.getElem?_take,
      List.getElem?_set]
    by_cases hq : q < t.slots.length - 1
    · rw [if_pos hq]
      by_cases hqp : p = q
      · subst hqp
        rw [if_pos rfl, if_pos hlt]
        by_cases ho : other = t.slots.getLast (ne_nil_of_position h)
        · simp [ho]
        · rw [if_neg ho]
          constructor
          · intro hother
            split at hother
            · cases hother
            · rename_i hne
              exact absurd (position_injective hother h) hne
          · intro hother
            exact absurd (Option.some.inj hother).symm ho
      · rw [if_neg hqp, ← t.located]
        by_cases ho : other = t.slots.getLast (ne_nil_of_position h)
        · rw [if_pos ho, ho, hmoved, Option.some.injEq, Option.some.injEq]
          omega
        · rw [if_neg ho]
          by_cases hs : other = slot
          · rw [if_pos hs, hs, h, Option.some.injEq]
            simp [hqp]
          · rw [if_neg hs]
    · rw [if_neg hq]
      constructor
      · intro hother
        split at hother
        · have heq := Option.some.inj hother
          omega
        · rename_i ho
          split at hother
          · cases hother
          · have hlt' := lt_of_position hother
            have heq : q = t.slots.length - 1 := by omega
            exact absurd (position_injective (heq ▸ hother) hmoved) ho
      · intro hother
        cases hother

/-- Drop one entry, if it is there. -/
def remove (t : CodeTable) (slot : Int) : CodeTable × Bool :=
  match hp : t.positions[slot]? with
  | none => (t, false)
  | some p =>
    if hlast : p = t.slots.length - 1 then (t.pop slot (hlast ▸ hp), true)
    else (t.fillHole slot p hp hlast, true)

/-! ## What the table holds -/

/-- The code of a slot. -/
def code (t : CodeTable) (slot : Int) : Option (List UInt8) :=
  t.positions[slot]?.map (block t.stride t.data)

/-- The entries in the order in which a scan visits them. -/
def entries (t : CodeTable) : List (Int × List UInt8) :=
  t.slots.zipIdx.map fun entry => (entry.1, block t.stride t.data entry.2)

theorem code_eq_some {t : CodeTable} {slot : Int} {code : List UInt8} :
    t.code slot = some code ↔ ∃ p, t.slots[p]? = some slot ∧ block t.stride t.data p = code := by
  simp only [CodeTable.code, Option.map_eq_some_iff, t.located]

theorem mem_entries {t : CodeTable} {slot : Int} {code : List UInt8} :
    (slot, code) ∈ t.entries ↔ t.code slot = some code := by
  rw [code_eq_some]
  simp only [entries, List.mem_map, Prod.exists, List.mem_zipIdx_iff_getElem?, Prod.mk.injEq]
  constructor
  · rintro ⟨s, p, hs, rfl, hcode⟩
    exact ⟨p, hs, hcode⟩
  · rintro ⟨p, hs, hcode⟩
    exact ⟨slot, p, hs, rfl, hcode⟩

theorem keys_entries (t : CodeTable) : t.entries.map Prod.fst = t.slots := by
  rw [entries, List.map_map]
  exact List.zipIdx_map_fst 0 t.slots

theorem nodup_entries (t : CodeTable) : t.entries.Nodup := by
  apply List.Nodup.of_map Prod.fst
  rw [keys_entries]
  exact t.nodup_slots

@[simp] theorem code_new (stride : Nat) (slot : Int) : (new stride).code slot = none := by
  simp [code, new]

@[simp] theorem stride_upsert (t : CodeTable) (slot : Int) (code : List UInt8) :
    (t.upsert slot code).1.stride = t.stride := by
  unfold upsert
  split
  · split <;> rfl
  · rfl

@[simp] theorem stride_remove (t : CodeTable) (slot : Int) : (t.remove slot).1.stride = t.stride := by
  unfold remove
  split
  · rfl
  · split <;> rfl

theorem upsert_ok {t : CodeTable} {slot : Int} {code : List UInt8} (hcode : code.length = t.stride) :
    t.upsert slot code = ((t.upsert slot code).1, true) := by
  rw [upsert, dif_pos hcode]
  split <;> rfl

/-- An upsert sets the code of its slot and no other. -/
theorem code_upsert {t : CodeTable} {slot : Int} {code : List UInt8} (hcode : code.length = t.stride)
    (other : Int) : (t.upsert slot code).1.code other = if other = slot then some code else t.code other := by
  rw [upsert, dif_pos hcode]
  split
  · rename_i p hp
    have hlt := lt_of_position hp
    simp only [CodeTable.code, overwrite]
    by_cases ho : other = slot
    · rw [if_pos ho, ho, hp, Option.map_some, block_setBlock_self t.width hcode hlt]
    · rw [if_neg ho]
      cases hq : t.positions[other]? with
      | none => rfl
      | some q =>
        have hne : q ≠ p := by
          rintro rfl
          exact ho (position_injective hq hp)
        rw [Option.map_some, Option.map_some, block_setBlock_ne t.width hcode hlt hne]
  · rename_i hp
    simp only [CodeTable.code, push, getElem?_insert]
    by_cases ho : other = slot
    · rw [if_pos ho, if_pos ho, Option.map_some, block_append_last t.width hcode]
    · rw [if_neg ho, if_neg ho]
      cases hq : t.positions[other]? with
      | none => rfl
      | some q =>
        rw [Option.map_some, Option.map_some, block_append_lt t.width (lt_of_position hq)]

/-- A removal takes the code of its slot and no other. -/
theorem code_remove (t : CodeTable) (slot other : Int) :
    (t.remove slot).1.code other = if other = slot then none else t.code other := by
  unfold remove
  split
  · rename_i hp
    by_cases ho : other = slot
    · rw [if_pos ho, ho, CodeTable.code, hp]
      rfl
    · rw [if_neg ho]
  · rename_i p hp
    have hlt := lt_of_position hp
    split
    · rename_i hlast
      simp only [CodeTable.code, pop, getElem?_erase]
      by_cases ho : other = slot
      · rw [if_pos ho, if_pos ho]
        rfl
      · rw [if_neg ho, if_neg ho]
        cases hq : t.positions[other]? with
        | none => rfl
        | some q =>
          have hne : q ≠ p := by
            rintro rfl
            exact ho (position_injective hq hp)
          have hqlt := lt_of_position hq
          rw [Option.map_some, Option.map_some, block_take_lt (by omega)]
    · rename_i hlast
      have hblock : (block t.stride t.data (t.slots.length - 1)).length = t.stride :=
        length_block t.width (by omega)
      have hmoved := (t.located _ _).mpr (getElem?_last (ne_nil_of_position hp))
      simp only [CodeTable.code, fillHole, getElem?_insert, getElem?_erase]
      by_cases hm : other = t.slots.getLast (ne_nil_of_position hp)
      · have hne : other ≠ slot := by
          rintro rfl
          rw [hm, hmoved] at hp
          exact hlast (Option.some.inj hp).symm
        rw [if_pos hm, if_neg hne, hm, hmoved, Option.map_some, Option.map_some,
          block_take_lt (by omega), block_setBlock_self t.width hblock hlt]
      · rw [if_neg hm]
        by_cases ho : other = slot
        · rw [if_pos ho, if_pos ho]
          rfl
        · rw [if_neg ho, if_neg ho]
          cases hq : t.positions[other]? with
          | none => rfl
          | some q =>
            have hne : q ≠ p := by
              rintro rfl
              exact ho (position_injective hq hp)
            have hqlast : q ≠ t.slots.length - 1 := by
              rintro rfl
              exact hm (position_injective hq hmoved)
            have hqlt := lt_of_position hq
            rw [Option.map_some, Option.map_some, block_take_lt (by omega),
              block_setBlock_ne t.width hblock hlt hne]

end CodeTable

end SupraHarness.Vector
