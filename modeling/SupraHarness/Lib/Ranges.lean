import Mathlib.Data.List.Basic
import Mathlib.Order.Lattice

/-!
# Range tables

A set of numbers kept as a sorted array of inclusive ranges, with membership by binary search. A
table carries the fact that it is sorted, so the search finds exactly the members. Two tables are
compared range by range.
-/
namespace SupraHarness.Ranges

structure Range where
  lo : Nat
  hi : Nat
  deriving DecidableEq, Repr

/-- Every range is non-empty and ends before the next one starts. -/
def sorted : List Range → Bool
  | [] => true
  | [r] => r.lo ≤ r.hi
  | r :: s :: rest => r.lo ≤ r.hi && r.hi < s.lo && sorted (s :: rest)

structure Table where
  ranges : Array Range
  isSorted : sorted ranges.toList = true

/-- `while (lo < hi)` over the window `[lo, hi)`, for at most as many passes as it is wide. -/
def search (ranges : Array Range) (n : Nat) : Nat → Nat → Nat → Bool
  | 0, _, _ => false
  | passes + 1, lo, hi =>
    if lo < hi then
      let mid := lo + (hi - lo) / 2
      match ranges[mid]? with
      | none => false
      | some r =>
        if n < r.lo then search ranges n passes lo mid
        else if r.hi < n then search ranges n passes (mid + 1) hi
        else true
    else false

def Table.contains (t : Table) (n : Nat) : Bool :=
  search t.ranges n t.ranges.size 0 t.ranges.size

def Range.has (r : Range) (n : Nat) : Prop := r.lo ≤ n ∧ n ≤ r.hi

theorem sorted_cons {r : Range} {rest : List Range} (h : sorted (r :: rest) = true) :
    r.lo ≤ r.hi ∧ (∀ s ∈ rest, r.hi < s.lo) ∧ sorted rest = true := by
  induction rest generalizing r with
  | nil => exact ⟨by simpa [sorted] using h, by simp, rfl⟩
  | cons s rest ih =>
    simp only [sorted, Bool.and_eq_true, decide_eq_true_eq] at h
    obtain ⟨⟨hr, hrs⟩, hrest⟩ := h
    obtain ⟨hs, hall, -⟩ := ih hrest
    refine ⟨hr, ?_, hrest⟩
    intro u hu
    rcases List.mem_cons.1 hu with rfl | hu
    · exact hrs
    · have := hall u hu
      omega

/-- In a sorted table the ranges of a lower index end before those of a higher one. -/
theorem sorted_lt {rs : List Range} (h : sorted rs = true) {i j : Nat} (hij : i < j) {r s : Range}
    (hi : rs[i]? = some r) (hj : rs[j]? = some s) : r.hi < s.lo := by
  induction rs generalizing i j with
  | nil => cases hi
  | cons u rest ih =>
    obtain ⟨-, hall, hrest⟩ := sorted_cons h
    cases j with
    | zero => exact absurd hij (Nat.not_lt_zero i)
    | succ j =>
      rw [List.getElem?_cons_succ] at hj
      cases i with
      | zero =>
        rw [List.getElem?_cons_zero, Option.some_inj] at hi
        exact hi ▸ hall s (List.mem_of_getElem? hj)
      | succ i =>
        rw [List.getElem?_cons_succ] at hi
        exact ih hrest (Nat.lt_of_succ_lt_succ hij) hi hj

theorem sorted_le {rs : List Range} (h : sorted rs = true) {r : Range} (hr : r ∈ rs) :
    r.lo ≤ r.hi := by
  induction rs with
  | nil => cases hr
  | cons u rest ih =>
    obtain ⟨hu, -, hrest⟩ := sorted_cons h
    rcases List.mem_cons.1 hr with rfl | hr
    · exact hu
    · exact ih hrest hr

theorem search_sound {ranges : Array Range} {n passes lo hi : Nat}
    (h : search ranges n passes lo hi = true) : ∃ r ∈ ranges.toList, r.has n := by
  induction passes generalizing lo hi with
  | zero => cases h
  | succ passes ih =>
    simp only [search] at h
    split_ifs at h with hlt
    cases hm : ranges[lo + (hi - lo) / 2]? with
    | none => simp [hm] at h
    | some r =>
      simp only [hm] at h
      split_ifs at h with hl hr
      · exact ih h
      · exact ih h
      · exact ⟨r, by simpa using Array.mem_of_getElem? hm, Nat.le_of_not_lt hl, Nat.le_of_not_lt hr⟩

theorem search_complete {ranges : Array Range} (hs : sorted ranges.toList = true)
    {n passes lo hi i : Nat} {r : Range} (hi' : ranges.toList[i]? = some r) (hr : r.has n)
    (hlo : lo ≤ i) (hhi : i < hi) (hsize : hi ≤ ranges.size) (hp : hi - lo ≤ passes) :
    search ranges n passes lo hi = true := by
  induction passes generalizing lo hi with
  | zero => omega
  | succ passes ih =>
    have hlt : lo < hi := by omega
    have hmid : lo + (hi - lo) / 2 < ranges.size := by omega
    have hget : ranges[lo + (hi - lo) / 2]? = some ranges[lo + (hi - lo) / 2] :=
      Array.getElem?_eq_getElem hmid
    have hlist : ranges.toList[lo + (hi - lo) / 2]? = some ranges[lo + (hi - lo) / 2] := by
      rw [Array.getElem?_toList, hget]
    have hmem := List.mem_of_getElem? hlist
    have hle := sorted_le hs hmem
    obtain ⟨hrl, hrh⟩ := hr
    simp only [search, hlt, if_true, hget]
    generalize hm : ranges[lo + (hi - lo) / 2] = s at hlist hle
    by_cases hl : n < s.lo
    · have hne : ¬ lo + (hi - lo) / 2 ≤ i := by
        intro hmi
        rcases Nat.lt_or_eq_of_le hmi with hmi | hmi
        · have := sorted_lt hs hmi hlist hi'
          omega
        · rw [hmi, hi', Option.some_inj] at hlist
          subst hlist
          omega
      rw [if_pos hl]
      exact ih hlo (by omega) (by omega) (by omega)
    · rw [if_neg hl]
      by_cases hh : s.hi < n
      · have hne : ¬ i ≤ lo + (hi - lo) / 2 := by
          intro him
          rcases Nat.lt_or_eq_of_le him with him | him
          · have := sorted_lt hs him hi' hlist
            omega
          · rw [← him, hi', Option.some_inj] at hlist
            subst hlist
            omega
        rw [if_pos hh]
        exact ih (by omega) hhi hsize (by omega)
      · rw [if_neg hh]

/-- The search finds exactly the members. -/
theorem contains_iff (t : Table) (n : Nat) :
    t.contains n = true ↔ ∃ r ∈ t.ranges.toList, r.has n := by
  constructor
  · exact search_sound
  · rintro ⟨r, hmem, hr⟩
    obtain ⟨i, hi⟩ := List.mem_iff_getElem?.1 hmem
    have hlt := (List.getElem?_eq_some_iff.1 hi).1
    exact search_complete t.isSorted hi hr (Nat.zero_le i) (by simpa using hlt) (Nat.le_refl _)
      (Nat.le_refl _)

-- A table is opened by `contains_iff` only: unfolding the search runs through its ranges.
attribute [irreducible] Table.contains

/-! ## Comparing tables -/

/-- Every range of the first lies in a range of the second, found without going back. -/
def within : List Range → List Range → Bool
  | [], _ => true
  | r :: rs, ss =>
    match ss.dropWhile fun s => s.hi < r.lo with
    | [] => false
    | s :: later => s.lo ≤ r.lo && r.hi ≤ s.hi && within rs (s :: later)

/-- No range of the first meets a range of the second, when both are sorted. -/
def apart : List Range → List Range → Bool
  | [], _ => true
  | r :: rs, ss =>
    match ss.dropWhile fun s => s.hi < r.lo with
    | [] => true
    | s :: later => r.hi < s.lo && apart rs (s :: later)

theorem within_sound {rs ss : List Range} (h : within rs ss = true) {r : Range} (hr : r ∈ rs) :
    ∃ s ∈ ss, s.lo ≤ r.lo ∧ r.hi ≤ s.hi := by
  induction rs generalizing ss with
  | nil => cases hr
  | cons first rs ih =>
    have back : ∀ s ∈ ss.dropWhile (fun s => s.hi < first.lo), s ∈ ss :=
      fun s hs => (List.dropWhile_sublist _).subset hs
    rw [within] at h
    cases found : ss.dropWhile (fun s => s.hi < first.lo) with
    | nil =>
      rw [found] at h
      cases h
    | cons s later =>
      rw [found] at h back
      simp only [Bool.and_eq_true, decide_eq_true_eq] at h
      rcases List.mem_cons.1 hr with rfl | hr
      · exact ⟨s, back s List.mem_cons_self, h.1⟩
      · obtain ⟨s', hs', hin⟩ := ih h.2 hr
        exact ⟨s', back s' hs', hin⟩

theorem sorted_dropWhile {ss : List Range} (h : sorted ss = true) (p : Range → Bool) :
    sorted (ss.dropWhile p) = true := by
  induction ss with
  | nil => exact h
  | cons s ss ih =>
    rw [List.dropWhile_cons]
    split
    · exact ih (sorted_cons h).2.2
    · exact h

theorem apart_sound {rs ss : List Range} (hrs : sorted rs = true) (hss : sorted ss = true)
    (h : apart rs ss = true) {r s : Range} (hr : r ∈ rs) (hs : s ∈ ss) : r.hi < s.lo ∨ s.hi < r.lo := by
  induction rs generalizing ss with
  | nil => cases hr
  | cons first rs ih =>
    obtain ⟨hle, hafter, hrest⟩ := sorted_cons hrs
    -- what lies in front of the first range lies in front of the others
    have hfront : s ∈ ss.takeWhile (fun s => s.hi < first.lo) → s.hi < r.lo := by
      intro hs
      have hbefore : s.hi < first.lo := by simpa using List.all_eq_true.1 List.all_takeWhile s hs
      rcases List.mem_cons.1 hr with rfl | hr
      · exact hbefore
      · have := hafter r hr
        omega
    have hsplit := List.takeWhile_append_dropWhile (p := fun s : Range => s.hi < first.lo) (l := ss)
    have hsorted := sorted_dropWhile hss fun s => s.hi < first.lo
    rw [apart] at h
    rcases List.mem_append.1 (hsplit ▸ hs) with hbefore | hlater
    · exact Or.inr (hfront hbefore)
    · cases found : ss.dropWhile (fun s => s.hi < first.lo) with
      | nil =>
        rw [found] at hlater
        cases hlater
      | cons next later =>
        rw [found] at h hlater hsorted
        simp only [Bool.and_eq_true, decide_eq_true_eq] at h
        rcases List.mem_cons.1 hr with rfl | hr
        · left
          rcases List.mem_cons.1 hlater with rfl | hlater
          · exact h.1
          · obtain ⟨hnext, hall, -⟩ := sorted_cons hsorted
            have := hall s hlater
            omega
        · exact ih hrest hsorted h.2 hr hlater

theorem contains_of_within {t u : Table} (h : within t.ranges.toList u.ranges.toList = true)
    {n : Nat} (hn : t.contains n = true) : u.contains n = true := by
  obtain ⟨r, hr, hl, hh⟩ := (contains_iff t n).1 hn
  obtain ⟨s, hs, hlo, hhi⟩ := within_sound h hr
  exact (contains_iff u n).2 ⟨s, hs, Nat.le_trans hlo hl, Nat.le_trans hh hhi⟩

/-- A member of a table has a place in none of the ranges it is apart from. -/
theorem not_has {t : Table} {rs : List Range} (hrs : sorted rs = true)
    (h : apart t.ranges.toList rs = true) {n : Nat} (hn : t.contains n = true) : ∀ r ∈ rs, ¬ r.has n := by
  intro r hr hhas
  obtain ⟨s, hs, hl, hh⟩ := (contains_iff t n).1 hn
  have hapart := apart_sound t.isSorted hrs h hs hr
  simp only [Range.has] at hhas
  omega

theorem not_contains_of_apart {t u : Table} (h : apart t.ranges.toList u.ranges.toList = true) {n : Nat}
    (hn : t.contains n = true) : u.contains n = false := by
  rw [← Bool.not_eq_true, contains_iff]
  rintro ⟨r, hr, hhas⟩
  exact not_has u.isSorted h hn r hr hhas

end SupraHarness.Ranges
