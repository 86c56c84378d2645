import Mathlib.Data.List.Perm.Basic
import Mathlib.Data.List.Nodup

/-!
# Rosters of slots

A roster maps each of its members to a slot that is empty or holds one value.
Filling an empty slot adds one entry to the filled ones and changes neither the
members nor the other slots, so whatever is counted over the filled slots grows
by the entry that was filled in. A roster can be rebuilt from its members and
its filled entries, in any order.
-/
namespace SupraHarness.Slots

open Std (ExtTreeMap)

variable {κ β : Type} {cmp : κ → κ → Ordering} [Std.TransCmp cmp]

/-! ## Counting entries -/

/-- The entries whose value passes a test. -/
def countEntries (p : β → Bool) (m : ExtTreeMap κ β cmp) : Nat := m.toList.countP fun entry => p entry.2

theorem countEntries_map (p : β → Bool) (m : ExtTreeMap κ β cmp) (f : κ → β → β) (h : ∀ k v, p (f k v) = p v) :
    countEntries p (m.map f) = countEntries p m := by
  rw [countEntries, ExtTreeMap.toList_map, List.countP_map]
  exact List.countP_congr fun entry _ => by simp [h]

theorem nodup_toList [Std.LawfulEqCmp cmp] (m : ExtTreeMap κ β cmp) : m.toList.Nodup := by
  have keys : (m.toList.map Prod.fst).Nodup := by
    rw [ExtTreeMap.map_fst_toList_eq_keys]
    exact m.nodup_keys
  exact List.Nodup.of_map _ keys

/-- The entry of a key comes beside the entries of the other keys. -/
theorem toList_insert_perm [Std.LawfulEqCmp cmp] (m : ExtTreeMap κ β cmp) (k : κ) (v : β) :
    (m.insert k v).toList.Perm ((k, v) :: (m.erase k).toList) := by
  have apart : (k, v) ∉ (m.erase k).toList := by
    rw [ExtTreeMap.mem_toList_iff_getElem?_eq_some, ExtTreeMap.getElem?_erase_self]
    exact nofun
  refine (List.perm_ext_iff_of_nodup (nodup_toList _) (List.nodup_cons.2 ⟨apart, nodup_toList _⟩)).2 ?_
  rintro ⟨k', v'⟩
  rw [List.mem_cons, ExtTreeMap.mem_toList_iff_getElem?_eq_some, ExtTreeMap.mem_toList_iff_getElem?_eq_some,
    ExtTreeMap.getElem?_insert, ExtTreeMap.getElem?_erase]
  by_cases h : cmp k k' = .eq
  · obtain rfl := Std.LawfulEqCmp.eq_of_compare h
    rw [if_pos h, if_pos h]
    simp [eq_comm]
  · have other : k' ≠ k := fun same => h (by rw [same]; exact Std.ReflCmp.compare_self)
    simp [h, other]

theorem countEntries_insert [Std.LawfulEqCmp cmp] (p : β → Bool) (m : ExtTreeMap κ β cmp) (k : κ) (v : β) :
    countEntries p (m.insert k v) = countEntries p (m.erase k) + if p v then 1 else 0 := by
  rw [countEntries, (toList_insert_perm m k v).countP_eq, List.countP_cons, countEntries]

theorem countEntries_new [Std.LawfulEqCmp cmp] (p : β → Bool) {m : ExtTreeMap κ β cmp} {k : κ} (h : m[k]? = none) (v : β) :
    countEntries p (m.insert k v) = countEntries p m + if p v then 1 else 0 := by
  have same : m.erase k = m := by
    apply ExtTreeMap.ext_getElem?
    intro k'
    rw [ExtTreeMap.getElem?_erase]
    by_cases hk : cmp k k' = .eq
    · obtain rfl := Std.LawfulEqCmp.eq_of_compare hk
      rw [if_pos hk, h]
    · rw [if_neg hk]
  rw [countEntries_insert, same]

theorem countEntries_replace [Std.LawfulEqCmp cmp] (p : β → Bool) {m : ExtTreeMap κ β cmp} {k : κ} {v w : β} (h : m[k]? = some w)
    (hp : p v = p w) : countEntries p (m.insert k v) = countEntries p m := by
  have same : m.insert k w = m := by
    apply ExtTreeMap.ext_getElem?
    intro k'
    rw [ExtTreeMap.getElem?_insert]
    by_cases hk : cmp k k' = .eq
    · obtain rfl := Std.LawfulEqCmp.eq_of_compare hk
      rw [if_pos hk, h]
    · rw [if_neg hk]
  have before : countEntries p m = countEntries p (m.erase k) + if p w then 1 else 0 := by
    rw [← countEntries_insert, same]
  rw [countEntries_insert, before, hp]

/-! ## Slots -/

/-- The members with the values in their slots, where there is one. -/
def filled (m : ExtTreeMap κ (Option β) cmp) : List (κ × β) :=
  m.toList.filterMap fun entry => entry.2.map fun value => (entry.1, value)

/-- A roster whose slots are all empty. -/
def empties (ks : List κ) : ExtTreeMap κ (Option β) cmp :=
  ks.foldl (fun m k => m.insert k none) ∅

/-- Fill slots one after the other. -/
def fillAll (m : ExtTreeMap κ (Option β) cmp) (entries : List (κ × β)) : ExtTreeMap κ (Option β) cmp :=
  entries.foldl (fun m entry => m.insert entry.1 (some entry.2)) m

theorem length_filled_le (m : ExtTreeMap κ (Option β) cmp) : (filled m).length ≤ m.size := by
  rw [← ExtTreeMap.length_toList, filled]
  exact List.length_filterMap_le _ _

/-- No member is listed twice among the filled slots. -/
theorem nodup_keys_filled [Std.LawfulEqCmp cmp] (m : ExtTreeMap κ (Option β) cmp) :
    ((filled m).map Prod.fst).Nodup := by
  have hkeys : (m.toList.map Prod.fst).Nodup := by
    rw [ExtTreeMap.map_fst_toList_eq_keys]
    exact m.nodup_keys
  have hsub : ((filled m).map Prod.fst).Sublist (m.toList.map Prod.fst) := by
    rw [filled]
    generalize m.toList = l
    induction l with
    | nil => exact List.Sublist.refl _
    | cons entry l ih =>
      obtain ⟨k, slot⟩ := entry
      cases slot with
      | none => exact ih.cons k
      | some v => exact ih.cons_cons k
  exact hkeys.sublist hsub

theorem mem_filled [Std.LawfulEqCmp cmp] {m : ExtTreeMap κ (Option β) cmp} {k : κ} {v : β} :
    (k, v) ∈ filled m ↔ m[k]? = some (some v) := by
  rw [filled, List.mem_filterMap, ← ExtTreeMap.mem_toList_iff_getElem?_eq_some]
  constructor
  · rintro ⟨⟨k', slot⟩, hmem, hslot⟩
    obtain ⟨v', rfl, heq⟩ := Option.map_eq_some_iff.mp hslot
    cases heq
    exact hmem
  · intro hmem
    exact ⟨(k, some v), hmem, rfl⟩

theorem nodup_filled [Std.LawfulEqCmp cmp] (m : ExtTreeMap κ (Option β) cmp) : (filled m).Nodup :=
  List.Nodup.of_map _ (nodup_keys_filled m)

/-- Filling a slot keeps the number of members. -/
theorem size_insert {m : ExtTreeMap κ (Option β) cmp} {k : κ} {s : Option β} (v : Option β)
    (h : m[k]? = some s) : (m.insert k v).size = m.size := by
  rw [ExtTreeMap.size_insert, if_pos]
  exact ExtTreeMap.mem_iff_isSome_getElem?.mpr (by rw [h]; rfl)

variable [DecidableEq κ] [Std.LawfulEqCmp cmp]

theorem getElem?_insert (m : ExtTreeMap κ (Option β) cmp) (k a : κ) (v : Option β) :
    (m.insert k v)[a]? = if a = k then some v else m[a]? := by
  rw [ExtTreeMap.getElem?_insert]
  by_cases h : a = k
  · rw [if_pos h, if_pos (by rw [h]; exact Std.ReflCmp.compare_self)]
  · rw [if_neg h, if_neg]
    intro hc
    exact h (Std.LawfulEqCmp.eq_of_compare hc).symm

/-- Filling an empty slot adds one filled entry. -/
theorem filled_insert {m : ExtTreeMap κ (Option β) cmp} {k : κ} {v : β} (h : m[k]? = some none) :
    (filled (m.insert k (some v))).Perm ((k, v) :: filled m) := by
  have hnew : (k, v) ∉ filled m := by
    rw [mem_filled, h]
    simp
  apply (List.perm_ext_iff_of_nodup (nodup_filled _) (List.nodup_cons.mpr ⟨hnew, nodup_filled m⟩)).mpr
  rintro ⟨k', v'⟩
  rw [mem_filled, List.mem_cons, mem_filled, getElem?_insert]
  by_cases hk : k' = k
  · subst hk
    simp [h, eq_comm]
  · simp [hk]

theorem getElem?_empties (ks : List κ) (k : κ) :
    (empties ks : ExtTreeMap κ (Option β) cmp)[k]? = if k ∈ ks then some none else none := by
  have hfold : ∀ (m : ExtTreeMap κ (Option β) cmp),
      (ks.foldl (fun m k => m.insert k none) m)[k]? = if k ∈ ks then some none else m[k]? := by
    induction ks with
    | nil =>
      intro m
      simp
    | cons a ks ih =>
      intro m
      rw [List.foldl_cons, ih, getElem?_insert]
      by_cases hk : k ∈ ks <;> by_cases ha : k = a <;> simp [hk, ha]
  rw [empties, hfold]
  simp

theorem filled_empties (ks : List κ) : filled (empties ks : ExtTreeMap κ (Option β) cmp) = [] := by
  apply List.eq_nil_iff_forall_not_mem.mpr
  rintro ⟨k, v⟩ h
  rw [mem_filled, getElem?_empties] at h
  by_cases hk : k ∈ ks <;> simp [hk] at h

theorem mem_empties {ks : List κ} {k : κ} : k ∈ (empties ks : ExtTreeMap κ (Option β) cmp) ↔ k ∈ ks := by
  rw [ExtTreeMap.mem_iff_isSome_getElem?, getElem?_empties]
  by_cases hk : k ∈ ks <;> simp [hk]

theorem keys_empties {ks : List κ} (h : ks.Nodup) :
    (empties ks : ExtTreeMap κ (Option β) cmp).keys.Perm ks := by
  apply (List.perm_ext_iff_of_nodup ExtTreeMap.nodup_keys h).mpr
  intro k
  rw [ExtTreeMap.mem_keys, mem_empties]

theorem size_empties {ks : List κ} (h : ks.Nodup) :
    (empties ks : ExtTreeMap κ (Option β) cmp).size = ks.length := by
  rw [← ExtTreeMap.length_keys, (keys_empties h).length_eq]

theorem getElem?_fillAll_of_not_mem {entries : List (κ × β)} {k : κ}
    (h : k ∉ entries.map Prod.fst) (m : ExtTreeMap κ (Option β) cmp) :
    (fillAll m entries)[k]? = m[k]? := by
  induction entries generalizing m with
  | nil => rfl
  | cons entry entries ih =>
    rw [List.map_cons, List.mem_cons, not_or] at h
    rw [fillAll, List.foldl_cons, ← fillAll, ih h.2, getElem?_insert, if_neg h.1]

theorem getElem?_fillAll_of_mem {entries : List (κ × β)} {k : κ} {v : β}
    (hnodup : (entries.map Prod.fst).Nodup) (h : (k, v) ∈ entries) (m : ExtTreeMap κ (Option β) cmp) :
    (fillAll m entries)[k]? = some (some v) := by
  induction entries generalizing m with
  | nil => cases h
  | cons entry entries ih =>
    rw [List.map_cons, List.nodup_cons] at hnodup
    rw [fillAll, List.foldl_cons, ← fillAll]
    rcases List.mem_cons.mp h with rfl | h
    · rw [getElem?_fillAll_of_not_mem hnodup.1, getElem?_insert, if_pos rfl]
    · exact ih hnodup.2 h _

/-- A roster is rebuilt from its members and its filled entries, in whatever order they come. -/
theorem fillAll_empties {m : ExtTreeMap κ (Option β) cmp} {ks : List κ} {entries : List (κ × β)}
    (hks : ks.Perm m.keys) (hentries : entries.Perm (filled m)) :
    fillAll (empties ks) entries = m := by
  have hnodup : (entries.map Prod.fst).Nodup :=
    (hentries.map Prod.fst).nodup_iff.mpr (nodup_keys_filled m)
  apply ExtTreeMap.ext_getElem?
  intro k
  by_cases hk : k ∈ entries.map Prod.fst
  · obtain ⟨⟨k', v⟩, hmem, rfl⟩ := List.mem_map.mp hk
    rw [getElem?_fillAll_of_mem hnodup hmem, mem_filled.mp (hentries.mem_iff.mp hmem)]
  · rw [getElem?_fillAll_of_not_mem hk, getElem?_empties]
    cases hslot : m[k]? with
    | none =>
      rw [if_neg]
      intro hmem
      have hm := ExtTreeMap.mem_keys.mp (hks.mem_iff.mp hmem)
      rw [ExtTreeMap.mem_iff_isSome_getElem?, hslot] at hm
      cases hm
    | some slot =>
      have hm : k ∈ m := ExtTreeMap.mem_iff_isSome_getElem?.mpr (by rw [hslot]; rfl)
      rw [if_pos (hks.mem_iff.mpr (ExtTreeMap.mem_keys.mpr hm))]
      cases slot with
      | none => rfl
      | some v =>
        have hmem := hentries.mem_iff.mpr (mem_filled.mpr hslot)
        exact absurd (List.mem_map_of_mem hmem) hk

end SupraHarness.Slots
