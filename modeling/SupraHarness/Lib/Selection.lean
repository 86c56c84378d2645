import Mathlib.Data.List.Basic

/-!
# The least elements of a list

A selection moves an element of a list to the place it has in the sorted list, with nothing larger
in front of it and nothing smaller behind it, in whatever order. Cut behind that place and sorted,
the list is the beginning of the sorted list.
-/
namespace SupraHarness.Selection

variable {α : Type*}

/-- A linear order as a comparison that can be computed. -/
structure Linear (le : α → α → Bool) : Prop where
  trans : ∀ a b c, le a b = true → le b c = true → le a c = true
  total : ∀ a b, (le a b || le b a) = true
  antisymm : ∀ a b, le a b = true → le b a = true → a = b

variable {le : α → α → Bool}

/-- A sorted list is determined by its members. -/
theorem sorted_ext (h : Linear le) {l m : List α} (hperm : l.Perm m) (hl : l.Pairwise fun a b => le a b = true)
    (hm : m.Pairwise fun a b => le a b = true) : l = m :=
  hperm.eq_of_pairwise (fun a b _ _ => h.antisymm a b) hl hm

theorem sorted_sort (h : Linear le) (l : List α) : (l.mergeSort le).Pairwise fun a b => le a b = true :=
  List.pairwise_mergeSort h.trans h.total l

/-- Equal up to order, two lists are sorted to one list. -/
theorem sort_perm (h : Linear le) {l m : List α} (hperm : l.Perm m) : l.mergeSort le = m.mergeSort le := by
  apply sorted_ext h _ (sorted_sort h l) (sorted_sort h m)
  exact (List.mergeSort_perm l le).trans (hperm.trans (List.mergeSort_perm m le).symm)

theorem key_of_mem_zip {β κ : Type*} {key : β → κ} {l m : List β} (same : l.map key = m.map key) {pair : β × β}
    (hmem : pair ∈ l.zip m) : key pair.1 = key pair.2 := by
  induction l generalizing m with
  | nil => simp at hmem
  | cons b l ih =>
    cases m with
    | nil => simp at hmem
    | cons c m =>
      simp only [List.map_cons, List.cons.injEq] at same
      rcases List.mem_cons.mp hmem with rfl | hmem
      · exact same.1
      · exact ih same.2 hmem

/-- Lists that agree in the key their images are sorted by are sorted to the same only if they are the same. -/
theorem sort_map_iff {β κ : Type*} {f : β → α} {key : β → κ}
    (hle : ∀ a a' b b', key a = key a' → key b = key b' → le (f a) (f b) = le (f a') (f b'))
    (hinj : ∀ a a', key a = key a' → f a = f a' → a = a') {l m : List β} (same : l.map key = m.map key) :
    (l.map f).mergeSort le = (m.map f).mergeSort le ↔ l = m := by
  have hlength : l.length = m.length := by
    have := congrArg List.length same
    rwa [List.length_map, List.length_map] at this
  have hleft : (l.zip m).map Prod.fst = l := List.map_fst_zip (Nat.le_of_eq hlength)
  have hright : (l.zip m).map Prod.snd = m := List.map_snd_zip (Nat.le_of_eq hlength.symm)
  constructor
  · intro hsort
    have hzip : ((l.zip m).map (f ∘ Prod.fst)).mergeSort le = ((l.zip m).map (f ∘ Prod.snd)).mergeSort le := by
      rw [← List.map_map, hleft, ← List.map_map, hright]
      exact hsort
    have hfst := @List.map_mergeSort _ _ (fun a b : β × β => le (f a.1) (f b.1)) le (f ∘ Prod.fst) (l.zip m)
      fun _ _ _ _ => rfl
    have hsnd := @List.map_mergeSort _ _ (fun a b : β × β => le (f a.1) (f b.1)) le (f ∘ Prod.snd) (l.zip m)
      fun a ha b hb => hle _ _ _ _ (key_of_mem_zip same ha) (key_of_mem_zip same hb)
    have hpairs := List.map_inj_left.mp (hfst.trans (hzip.trans hsnd.symm))
    have heq : ∀ pair ∈ l.zip m, pair.1 = pair.2 := fun pair hmem =>
      hinj _ _ (key_of_mem_zip same hmem) (hpairs pair (List.mem_mergeSort.mpr hmem))
    rw [← hleft, List.map_congr_left heq, hright]
  · rintro rfl
    rfl

/-- A comparison that is a linear order among the members of a list. -/
structure LinearOn (le : α → α → Bool) (l : List α) : Prop where
  trans : ∀ a ∈ l, ∀ b ∈ l, ∀ c ∈ l, le a b = true → le b c = true → le a c = true
  total : ∀ a ∈ l, ∀ b ∈ l, (le a b || le b a) = true
  antisymm : ∀ a ∈ l, ∀ b ∈ l, le a b = true → le b a = true → a = b

theorem LinearOn.subset {l m : List α} (h : LinearOn le l) (hsub : m ⊆ l) : LinearOn le m :=
  ⟨fun a ha b hb c hc => h.trans a (hsub ha) b (hsub hb) c (hsub hc), fun a ha b hb => h.total a (hsub ha) b (hsub hb),
    fun a ha b hb => h.antisymm a (hsub ha) b (hsub hb)⟩

/-- An order among the members is enough to sort them. -/
theorem LinearOn.sorted_sort {l : List α} (h : LinearOn le l) : (l.mergeSort le).Pairwise fun a b => le a b = true := by
  have hsorted := @List.pairwise_mergeSort _ (fun a b : { a // a ∈ l } => le a.1 b.1)
    (fun a b c => h.trans a.1 a.2 b.1 b.2 c.1 c.2) (fun a b => h.total a.1 a.2 b.1 b.2) l.attach
  have hmap : (l.attach.mergeSort fun a b => le a.1 b.1).map Subtype.val = l.mergeSort le := by
    rw [@List.map_mergeSort _ _ (fun a b : { a // a ∈ l } => le a.1 b.1) le Subtype.val l.attach fun _ _ _ _ => rfl,
      List.attach_map_subtype_val]
  rw [← hmap, List.pairwise_map]
  exact hsorted

theorem LinearOn.sort_perm {l m : List α} (h : LinearOn le l) (hperm : l.Perm m) :
    l.mergeSort le = m.mergeSort le := by
  have hm := (h.subset hperm.symm.subset).sorted_sort
  have hsame := (List.mergeSort_perm l le).trans (hperm.trans (List.mergeSort_perm m le).symm)
  apply hsame.eq_of_pairwise _ h.sorted_sort hm
  intro a b ha hb
  exact h.antisymm a (List.mem_mergeSort.mp ha) b (hperm.mem_iff.mpr (List.mem_mergeSort.mp hb))

/-- What a selection of the element at `pivot` leaves. -/
structure Selected (le : α → α → Bool) (l m : List α) (pivot : Nat) : Prop where
  perm : m.Perm l
  front : ∀ a ∈ m.take pivot, ∀ b ∈ m[pivot]?, le a b = true
  back : ∀ a ∈ m[pivot]?, ∀ b ∈ m.drop (pivot + 1), le a b = true

/-- An algorithm that selects, wherever there is an element to select. -/
structure Selector (le : α → α → Bool) where
  select : List α → Nat → List α
  selected : ∀ l pivot, pivot < l.length → Selected le l (select l pivot) pivot

/-- Everything up to the selected element comes before everything behind it. -/
theorem Selected.le_behind (h : Linear le) {l m : List α} {pivot : Nat} (hs : Selected le l m pivot)
    (hpivot : pivot < l.length) : ∀ a ∈ m.take (pivot + 1), ∀ b ∈ m.drop (pivot + 1), le a b = true := by
  have hlt : pivot < m.length := hs.perm.length_eq.symm ▸ hpivot
  have hat : m[pivot]? = some m[pivot] := List.getElem?_eq_getElem hlt
  intro a ha b hb
  rw [List.take_add_one, List.mem_append, hat, Option.toList_some, List.mem_singleton] at ha
  have hback := hs.back m[pivot] hat b hb
  rcases ha with ha | rfl
  · exact h.trans _ _ _ (hs.front a ha m[pivot] hat) hback
  · exact hback

/-- The selected beginning, sorted, is the beginning of the sorted list. -/
theorem Selected.sort_take (h : Linear le) {l m : List α} {pivot : Nat} (hs : Selected le l m pivot)
    (hpivot : pivot < l.length) : (m.take (pivot + 1)).mergeSort le = (l.mergeSort le).take (pivot + 1) := by
  have hlt : pivot < m.length := hs.perm.length_eq.symm ▸ hpivot
  have hbehind := hs.le_behind h hpivot
  have hsplit : l.mergeSort le = (m.take (pivot + 1)).mergeSort le ++ (m.drop (pivot + 1)).mergeSort le := by
    apply sorted_ext h
    · apply (List.mergeSort_perm l le).trans
      apply hs.perm.symm.trans
      conv_lhs => rw [← List.take_append_drop (pivot + 1) m]
      exact ((List.mergeSort_perm _ le).append (List.mergeSort_perm _ le)).symm
    · exact sorted_sort h l
    · rw [List.pairwise_append]
      refine ⟨sorted_sort h _, sorted_sort h _, ?_⟩
      intro a ha b hb
      exact hbehind a (List.mem_mergeSort.mp ha) b (List.mem_mergeSort.mp hb)
  rw [hsplit, List.take_left']
  rw [List.length_mergeSort, List.length_take]
  omega

/-- Sorting the whole list selects. -/
def Selector.sorting (h : Linear le) : Selector le where
  select l _ := l.mergeSort le
  selected l pivot hpivot := by
    have hsorted := sorted_sort h l
    have hlt : pivot < (l.mergeSort le).length := by rwa [List.length_mergeSort]
    have hat : (l.mergeSort le)[pivot]? = some (l.mergeSort le)[pivot] := List.getElem?_eq_getElem hlt
    rw [← List.take_append_drop pivot (l.mergeSort le), List.pairwise_append, List.drop_eq_getElem_cons hlt,
      List.pairwise_cons] at hsorted
    refine ⟨List.mergeSort_perm l le, ?_, ?_⟩
    · intro a ha b hb
      rw [hat, Option.mem_some_iff] at hb
      subst hb
      exact hsorted.2.2 a ha _ List.mem_cons_self
    · intro a ha b hb
      rw [hat, Option.mem_some_iff] at ha
      subst ha
      exact hsorted.2.1.1 b hb

end SupraHarness.Selection
