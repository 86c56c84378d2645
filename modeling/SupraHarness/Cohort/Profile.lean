import Mathlib.Data.List.Sort
import Mathlib.Data.Nat.Digits.Lemmas
import SupraHarness.Lib.Code

/-!
# Task shapes

A profile is kept under the key of a task's shape. A key is written value by value, each behind its length, so that it
determines the lists it was made of, their order included: equal shapes that come in different orders have keys of
their own.
-/
namespace SupraHarness.Cohort

open Code

abbrev Text := List Char

/-- What identifies a task shape. -/
structure TaskShape where
  toolClasses : List Text
  areas : List Text
  reversibility : Text
  deriving DecidableEq, Repr

def encodeValue (value : Text) : Text := Nat.toDigits 10 value.length ++ [':'] ++ value ++ [',']

def encode (values : List Text) : Text := values.flatMap encodeValue

/-- The shape key. -/
def TaskShape.key (shape : TaskShape) : Text :=
  encode shape.toolClasses ++ ['|'] ++ (encode shape.areas ++ ['|'] ++ encode [shape.reversibility])

/-- The same tool classes and the same areas up to order, and the same reversibility. -/
structure TaskShape.Same (s t : TaskShape) : Prop where
  toolClasses : s.toolClasses.Perm t.toolClasses
  areas : s.areas.Perm t.areas
  reversibility : s.reversibility = t.reversibility

/-- The lists are in order. -/
structure TaskShape.Sorted (shape : TaskShape) : Prop where
  toolClasses : shape.toolClasses.Pairwise List.le
  areas : shape.areas.Pairwise List.le

theorem isDigit_of_mem {n : Nat} {c : Char} (h : c ∈ Nat.toDigits 10 n) : c.isDigit :=
  Nat.isDigit_of_mem_toDigits (by decide) (by decide) h

theorem toDigits_injective : Function.Injective (Nat.toDigits 10) := by
  intro m n h
  rw [← Nat.ofDigitChars_ten_toDigits (n := m), h, Nat.ofDigitChars_ten_toDigits]

/-- A value is read back behind its length. -/
theorem prefixFree_encodeValue : PrefixFree encodeValue := by
  have header : PrefixFree fun n => Nat.toDigits 10 n ++ [':'] :=
    .marked toDigits_injective fun n mem => absurd (isDigit_of_mem mem) (by decide)
  exact header.sized.append_const [',']

theorem encodeValue_ne_nil (value : Text) : encodeValue value ≠ [] := by
  simp [encodeValue]

theorem head?_encodeValue (value : Text) : (encodeValue value).head? ≠ some '|' := by
  intro first
  have digits : (Nat.toDigits 10 value.length).head? = some '|' := by
    rwa [encodeValue, List.append_assoc, List.append_assoc,
      List.head?_append_of_ne_nil _ Nat.toDigits_ne_nil] at first
  exact absurd (isDigit_of_mem (List.mem_of_mem_head? digits)) (by decide)

/-- A key determines the lists it was made of. -/
theorem key_injective : Function.Injective TaskShape.key := by
  intro s t h
  have lists : PrefixFree fun values => encode values ++ ['|'] :=
    prefixFree_encodeValue.closed encodeValue_ne_nil head?_encodeValue
  obtain ⟨classes, h⟩ := lists h
  obtain ⟨areas, h⟩ := lists h
  have rest := prefixFree_encodeValue.flatMap_inj encodeValue_ne_nil h
  have last : s.reversibility = t.reversibility := List.singleton_inj.1 rest
  cases s
  cases t
  dsimp only at classes areas last
  rw [classes, areas, last]

/-- Two keys are equal just for the same shapes where these, if they are the same, come in the same order. -/
theorem key_iff (s t : TaskShape) : (s.key = t.key ↔ s.Same t) ↔
    (s.Same t → s.toolClasses = t.toolClasses ∧ s.areas = t.areas) := by
  rw [key_injective.eq_iff]
  constructor
  · intro exact_ same
    rw [exact_.2 same]
    exact ⟨rfl, rfl⟩
  · intro ordered
    constructor
    · rintro rfl
      exact ⟨.refl _, .refl _, rfl⟩
    · intro same
      obtain ⟨classes, areas⟩ := ordered same
      have last := same.reversibility
      cases s
      cases t
      dsimp only at classes areas last
      rw [classes, areas, last]

/-- Shapes whose lists are in order have the keys they are to have. -/
theorem key_eq_of_sorted {s t : TaskShape} (hs : s.Sorted) (ht : t.Sorted) : s.key = t.key ↔ s.Same t := by
  refine (key_iff s t).2 fun same => ⟨?_, ?_⟩
  · exact same.toolClasses.eq_of_pairwise (fun _ _ _ _ => List.le_antisymm) hs.toolClasses ht.toolClasses
  · exact same.areas.eq_of_pairwise (fun _ _ _ _ => List.le_antisymm) hs.areas ht.areas

example : (⟨["read".toList], ["general".toList], "R1".toList⟩ : TaskShape).key = "4:read,|7:general,|2:R1,".toList := by
  decide

/-- The same two classes in two orders have two keys. -/
theorem key_differs :
    (⟨["read".toList, "write".toList], [], "R1".toList⟩ : TaskShape).Same
      ⟨["write".toList, "read".toList], [], "R1".toList⟩ ∧
    (⟨["read".toList, "write".toList], [], "R1".toList⟩ : TaskShape).key = "4:read,5:write,||2:R1,".toList ∧
    (⟨["write".toList, "read".toList], [], "R1".toList⟩ : TaskShape).key = "5:write,4:read,||2:R1,".toList :=
  ⟨⟨.swap _ _ _, .refl _, rfl⟩, by decide, by decide⟩

end SupraHarness.Cohort
