import Mathlib.Data.List.Basic
import Mathlib.Order.Defs.LinearOrder
import Mathlib.Order.Lattice

/-!
# Ordered maps

A map as the list of its entries in strictly ascending order of the keys. The order is a field, so
that a map is determined by what it answers.
-/
namespace SupraHarness

structure OrdMap (κ : Type) [LinearOrder κ] (β : Type) where
  entries : List (κ × β)
  sorted : entries.Pairwise fun a b => a.1 < b.1

namespace OrdMap

variable {κ β : Type} [LinearOrder κ]

def getIn (key : κ) : List (κ × β) → Option β
  | [] => none
  | entry :: entries => if key = entry.1 then some entry.2 else getIn key entries

def get (m : OrdMap κ β) (key : κ) : Option β := getIn key m.entries

def empty : OrdMap κ β := ⟨[], List.Pairwise.nil⟩

def insertIn (key : κ) (value : β) : List (κ × β) → List (κ × β)
  | [] => [(key, value)]
  | entry :: entries =>
    if key < entry.1 then (key, value) :: entry :: entries
    else if key = entry.1 then (key, value) :: entries
    else entry :: insertIn key value entries

theorem mem_insertIn {key : κ} {value : β} {entries : List (κ × β)} {e : κ × β}
    (h : e ∈ insertIn key value entries) : e = (key, value) ∨ e ∈ entries := by
  induction entries with
  | nil => exact .inl (List.mem_singleton.mp h)
  | cons entry entries ih =>
    rw [insertIn] at h
    split at h
    · exact List.mem_cons.mp h
    · split at h
      · rcases List.mem_cons.mp h with h | h
        · exact .inl h
        · exact .inr (List.mem_cons_of_mem _ h)
      · rcases List.mem_cons.mp h with h | h
        · exact .inr (List.mem_cons.mpr (.inl h))
        · exact (ih h).imp_right (List.mem_cons_of_mem _)

theorem sorted_insertIn {key : κ} {value : β} {entries : List (κ × β)}
    (h : entries.Pairwise fun a b => a.1 < b.1) :
    (insertIn key value entries).Pairwise fun a b => a.1 < b.1 := by
  induction entries with
  | nil => exact List.pairwise_singleton _ _
  | cons entry entries ih =>
    obtain ⟨hhead, htail⟩ := List.pairwise_cons.mp h
    rw [insertIn]
    by_cases hlt : key < entry.1
    · rw [if_pos hlt]
      refine List.pairwise_cons.mpr ⟨?_, h⟩
      intro e he
      rcases List.mem_cons.mp he with rfl | he
      · exact hlt
      · exact lt_trans hlt (hhead e he)
    · rw [if_neg hlt]
      by_cases heq : key = entry.1
      · rw [if_pos heq]
        refine List.pairwise_cons.mpr ⟨?_, htail⟩
        intro e he
        rw [heq]
        exact hhead e he
      · rw [if_neg heq]
        refine List.pairwise_cons.mpr ⟨?_, ih htail⟩
        intro e he
        rcases mem_insertIn he with rfl | he
        · exact lt_of_le_of_ne (not_lt.mp hlt) (Ne.symm heq)
        · exact hhead e he

def insert (m : OrdMap κ β) (key : κ) (value : β) : OrdMap κ β :=
  ⟨insertIn key value m.entries, sorted_insertIn m.sorted⟩

/-- The entries that are kept. -/
def retain (m : OrdMap κ β) (keep : κ → β → Bool) : OrdMap κ β :=
  ⟨m.entries.filter fun entry => keep entry.1 entry.2, m.sorted.filter _⟩

theorem getIn_eq_none {key : κ} {entries : List (κ × β)} (h : ∀ e ∈ entries, key ≠ e.1) :
    getIn key entries = none := by
  induction entries with
  | nil => rfl
  | cons entry entries ih =>
    obtain ⟨hhead, htail⟩ := List.forall_mem_cons.mp h
    rw [getIn, if_neg hhead, ih htail]

theorem getIn_eq_some {key : κ} {value : β} {entries : List (κ × β)}
    (h : entries.Pairwise fun a b => a.1 < b.1) :
    getIn key entries = some value ↔ (key, value) ∈ entries := by
  induction entries with
  | nil => exact iff_of_false nofun nofun
  | cons entry entries ih =>
    obtain ⟨hhead, htail⟩ := List.pairwise_cons.mp h
    rw [getIn, List.mem_cons]
    by_cases heq : key = entry.1
    · rw [if_pos heq, Option.some_inj]
      constructor
      · intro hv
        exact .inl (Prod.ext heq hv.symm)
      · rintro (he | he)
        · rw [← he]
        · exact absurd (hhead _ he) (by rw [heq]; exact lt_irrefl _)
    · rw [if_neg heq, ih htail]
      refine ⟨.inr, ?_⟩
      rintro (he | he)
      · exact absurd (congrArg Prod.fst he) heq
      · exact he

theorem get_eq_some {m : OrdMap κ β} {key : κ} {value : β} :
    m.get key = some value ↔ (key, value) ∈ m.entries := getIn_eq_some m.sorted

@[simp] theorem get_empty (key : κ) : (empty : OrdMap κ β).get key = none := rfl

theorem getIn_eq_lookup (key : κ) (entries : List (κ × β)) :
    getIn key entries = entries.lookup key := by
  induction entries with
  | nil => rfl
  | cons entry entries ih =>
    obtain ⟨key', item⟩ := entry
    rw [getIn, ih]
    by_cases h : key = key'
    · subst h
      rw [if_pos rfl, List.lookup_cons_self]
    · rw [if_neg h, List.lookup_cons, beq_false_of_ne h]

theorem getIn_insertIn (key key' : κ) (value : β) (entries : List (κ × β)) :
    getIn key' (insertIn key value entries) = if key' = key then some value else getIn key' entries := by
  induction entries with
  | nil => rfl
  | cons entry entries ih =>
    rw [insertIn]
    by_cases hlt : key < entry.1
    · rw [if_pos hlt, getIn]
    · rw [if_neg hlt]
      by_cases heq : key = entry.1
      · rw [if_pos heq, getIn, getIn, ← heq]
        by_cases hk : key' = key
        · rw [if_pos hk, if_pos hk]
        · rw [if_neg hk, if_neg hk, if_neg hk]
      · rw [if_neg heq, getIn, getIn, ih]
        by_cases hk : key' = entry.1
        · rw [if_pos hk, if_pos hk, if_neg (hk ▸ Ne.symm heq)]
        · rw [if_neg hk, if_neg hk]

theorem get_insert (m : OrdMap κ β) (key key' : κ) (value : β) :
    (m.insert key value).get key' = if key' = key then some value else m.get key' :=
  getIn_insertIn key key' value m.entries

theorem get_retain (m : OrdMap κ β) (keep : κ → β → Bool) (key : κ) :
    (m.retain keep).get key = (m.get key).filter (keep key) := by
  apply Option.ext
  intro value
  rw [get_eq_some, Option.filter_eq_some_iff, get_eq_some]
  exact List.mem_filter

theorem nodup_entries (m : OrdMap κ β) : m.entries.Nodup := m.sorted.imp (by
  rintro a _ hab rfl
  exact lt_irrefl _ hab)

/-- A map is determined by what it answers. -/
theorem ext_get {m m' : OrdMap κ β} (h : ∀ key, m.get key = m'.get key) : m = m' := by
  have hmem : ∀ e, e ∈ m.entries ↔ e ∈ m'.entries := by
    intro e
    rw [← get_eq_some, ← get_eq_some, h]
  have hperm := (List.perm_ext_iff_of_nodup m.nodup_entries m'.nodup_entries).mpr hmem
  have heq := hperm.eq_of_pairwise (fun a b _ _ hab hba => absurd hab (lt_asymm hba)) m.sorted m'.sorted
  cases m
  cases m'
  cases heq
  rfl

def erase (m : OrdMap κ β) (key : κ) : OrdMap κ β := m.retain fun key' _ => key' ≠ key

theorem get_erase (m : OrdMap κ β) (key key' : κ) :
    (m.erase key).get key' = if key' = key then none else m.get key' := by
  rw [erase, get_retain]
  by_cases h : key' = key
  · rw [if_pos h]
    cases m.get key' <;> simp [h]
  · rw [if_neg h]
    cases m.get key' <;> simp [h]

theorem entries_erase (m : OrdMap κ β) (key : κ) :
    (m.erase key).entries = m.entries.filter fun entry => entry.1 ≠ key := rfl

/-- A key behind all others is entered at the end. -/
theorem entries_insert_last {m : OrdMap κ β} {key : κ} (h : ∀ entry ∈ m.entries, entry.1 < key) (value : β) :
    (m.insert key value).entries = m.entries ++ [(key, value)] := by
  change insertIn key value m.entries = _
  generalize m.entries = entries at h
  induction entries with
  | nil => rfl
  | cons entry entries ih =>
    obtain ⟨hhead, htail⟩ := List.forall_mem_cons.mp h
    rw [insertIn, if_neg (lt_asymm hhead), if_neg (ne_of_gt hhead), List.cons_append]
    exact congrArg (entry :: ·) (ih htail)

def keys (m : OrdMap κ β) : List κ := m.entries.map Prod.fst

theorem mem_keys {m : OrdMap κ β} {key : κ} : key ∈ m.keys ↔ (m.get key).isSome := by
  rw [Option.isSome_iff_exists, keys, List.mem_map]
  constructor
  · rintro ⟨⟨key, value⟩, mem, rfl⟩
    exact ⟨value, get_eq_some.mpr mem⟩
  · rintro ⟨value, h⟩
    exact ⟨(key, value), get_eq_some.mp h, rfl⟩

theorem sorted_keys (m : OrdMap κ β) : m.keys.Pairwise (· < ·) :=
  List.pairwise_map.mpr m.sorted

end OrdMap

end SupraHarness

/-!
## Demultiplexing

Deltas of many values arrive in one sequence, each under the key of the value it belongs to. A map
collects them: the value of a key starts fresh with its first delta and every delta of the key is
applied to it. However the keys are interleaved, each value is built from its own deltas alone.
-/
namespace SupraHarness.Demux

variable {κ β δ : Type} [LinearOrder κ] (key : δ → κ) (apply : β → δ → β) (fresh : β)

/-- The deltas of one key. -/
def own (k : κ) (deltas : List δ) : List δ := deltas.filter (key · = k)

/-- `entry(key).or_default()`, with the delta applied to it. -/
def deliver (map : OrdMap κ β) (delta : δ) : OrdMap κ β :=
  map.insert (key delta) (apply ((map.get (key delta)).getD fresh) delta)

def demux (map : OrdMap κ β) (deltas : List δ) : OrdMap κ β :=
  deltas.foldl (deliver key apply fresh) map

theorem get_deliver (map : OrdMap κ β) (delta : δ) (k : κ) :
    (deliver key apply fresh map delta).get k =
      if key delta = k then some (apply ((map.get k).getD fresh) delta) else map.get k := by
  rw [deliver, OrdMap.get_insert]
  by_cases h : k = key delta
  · rw [if_pos h, if_pos h.symm, h]
  · rw [if_neg h, if_neg (Ne.symm h)]

/-- What a key is answered is built from the deltas of that key. -/
theorem get_demux (map : OrdMap κ β) (deltas : List δ) (k : κ) :
    (demux key apply fresh map deltas).get k =
      if own key k deltas = [] then map.get k
      else some ((own key k deltas).foldl apply ((map.get k).getD fresh)) := by
  induction deltas generalizing map with
  | nil => rfl
  | cons delta deltas ih =>
    change (demux key apply fresh (deliver key apply fresh map delta) deltas).get k = _
    rw [ih, get_deliver]
    by_cases h : key delta = k
    · have hown : own key k (delta :: deltas) = delta :: own key k deltas :=
        List.filter_cons_of_pos (decide_eq_true h)
      rw [hown, if_pos h, if_neg (List.cons_ne_nil _ _), List.foldl_cons, Option.getD_some]
      by_cases hnil : own key k deltas = []
      · rw [if_pos hnil, hnil, List.foldl_nil]
      · rw [if_neg hnil]
    · have hown : own key k (delta :: deltas) = own key k deltas :=
        List.filter_cons_of_neg (by rw [decide_eq_false h]; exact Bool.false_ne_true)
      rw [hown, if_neg h]

/-- A map is the sorted list of entries that answers like it. -/
theorem entries_eq {map : OrdMap κ β} {entries : List (κ × β)}
    (sorted : entries.Pairwise fun a b => a.1 < b.1)
    (h : ∀ k v, map.get k = some v ↔ (k, v) ∈ entries) : map.entries = entries := by
  have hmap : map = ⟨entries, sorted⟩ := by
    apply OrdMap.ext_get
    intro k
    apply Option.ext
    intro v
    rw [h, OrdMap.get_eq_some]
  rw [hmap]

end SupraHarness.Demux
