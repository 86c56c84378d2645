import Mathlib.Data.Int.Order.Basic
import SupraHarness.Lib.Hamming
import SupraHarness.Lib.OrdMap
import SupraHarness.Lib.Selection
import SupraHarness.Vector.CodeTable

/-!
# The nearest codes

A scan scores every resident code by its Hamming distance to the query, selects as many of the
nearest as were asked for, and sorts what was selected. Ties break on the slot. Whatever the order
of the positions, and whatever order the selection leaves, the answer is the beginning of the
sorted entries of the map that the operations on the table describe.
-/
namespace SupraHarness.Vector

open Blocks Hamming Selection

/-! ## Distances -/

/-- `chunks_exact` -/
def chunksExact {α : Type} (width : Nat) (data : List α) : List (List α) :=
  (List.range (data.length / width)).map (block width data)

/-- What `chunks_exact` leaves over. -/
def remainder {α : Type} (width : Nat) (data : List α) : List α := data.drop (data.length / width * width)

/-- `codes::distance`: eight bytes at a time, and the tail a byte at a time. -/
def distance (left right : List UInt8) : Nat :=
  let total := ((chunksExact 8 left).zip (chunksExact 8 right)).foldl
    (fun total words => total + countOnes 64 (fromLe words.1 ^^^ fromLe words.2)) 0
  ((remainder 8 left).zip (remainder 8 right)).foldl
    (fun total bytes => total + countOnes 8 (bytes.1.toNat ^^^ bytes.2.toNat)) total

structure Candidate where
  distance : Nat
  slot : Int
  deriving DecidableEq, Repr

/-- The order of the key `(distance, slot)`. -/
def Candidate.le (a b : Candidate) : Bool := a.distance < b.distance || (a.distance == b.distance && a.slot ≤ b.slot)

namespace CodeTable

/-- Forget everything. -/
def clear (t : CodeTable) : CodeTable := new t.stride

/-- Every resident entry as a candidate. -/
def scored (t : CodeTable) (query : List UInt8) : List Candidate :=
  ((chunksExact t.stride t.data).zip t.slots).map fun entry => ⟨distance query entry.1, entry.2⟩

/-- The `width` closest slots to `query`, nearest first. -/
def nearest (selector : Selector Candidate.le) (t : CodeTable) (query : List UInt8) (width : Nat) : List Candidate :=
  if width = 0 ∨ t.slots = [] ∨ query.length ≠ t.stride then []
  else
    let scored := t.scored query
    let keep := min width scored.length
    let pivot := keep - 1
    ((selector.select scored pivot).take keep).mergeSort Candidate.le

end CodeTable

/-! ## Distances are Hamming distances -/

theorem linear_le : Linear Candidate.le := by
  constructor
  · intro a b c hab hbc
    simp only [Candidate.le, Bool.or_eq_true, Bool.and_eq_true, decide_eq_true_eq, beq_iff_eq] at hab hbc ⊢
    omega
  · intro a b
    simp only [Candidate.le, Bool.or_eq_true, Bool.and_eq_true, decide_eq_true_eq, beq_iff_eq]
    omega
  · rintro ⟨d, s⟩ ⟨d', s'⟩ hab hba
    simp only [Candidate.le, Bool.or_eq_true, Bool.and_eq_true, decide_eq_true_eq, beq_iff_eq] at hab hba
    obtain rfl : d = d' := by omega
    obtain rfl : s = s' := by omega
    rfl

theorem chunksExact_short {α : Type} {width : Nat} {data : List α} (h : data.length < width) :
    chunksExact width data = [] := by
  rw [chunksExact, Nat.div_eq_of_lt h]
  rfl

theorem remainder_short {α : Type} {width : Nat} {data : List α} (h : data.length < width) :
    remainder width data = data := by
  rw [remainder, Nat.div_eq_of_lt h, Nat.zero_mul, List.drop_zero]

/-- The first chunk, and the chunks of what is behind it. -/
theorem chunksExact_append {α : Type} {width : Nat} {chunk data : List α} (hchunk : chunk.length = width)
    (hpos : 0 < width) : chunksExact width (chunk ++ data) = chunk :: chunksExact width data := by
  have hdiv : (chunk ++ data).length / width = data.length / width + 1 := by
    rw [List.length_append, hchunk, Nat.add_comm, Nat.add_div_right _ hpos]
  rw [chunksExact, hdiv, List.range_succ_eq_map, List.map_cons, List.map_map, chunksExact]
  congr 1
  · rw [block, Nat.zero_mul, List.drop_zero, List.take_left' hchunk]
  · apply List.map_congr_left
    intro p _
    rw [Function.comp_apply, block, block, Nat.succ_mul, Nat.add_comm, ← hchunk, List.drop_append,
      List.drop_eq_nil_of_le (Nat.le_add_right _ _), Nat.add_sub_cancel_left, List.nil_append]

theorem remainder_append {α : Type} {width : Nat} {chunk data : List α} (hchunk : chunk.length = width)
    (hpos : 0 < width) : remainder width (chunk ++ data) = remainder width data := by
  have hdiv : (chunk ++ data).length / width = data.length / width + 1 := by
    rw [List.length_append, hchunk, Nat.add_comm, Nat.add_div_right _ hpos]
  rw [remainder, hdiv, remainder, Nat.succ_mul, Nat.add_comm, ← hchunk, List.drop_append,
    List.drop_eq_nil_of_le (Nat.le_add_right _ _), Nat.add_sub_cancel_left, List.nil_append]

theorem foldl_add {α : Type} (f : α → Nat) (l : List α) (n : Nat) :
    l.foldl (fun total a => total + f a) n = n + (l.map f).sum := by
  induction l generalizing n with
  | nil => rfl
  | cons a l ih => rw [List.foldl_cons, ih, List.map_cons, List.sum_cons, Nat.add_assoc]

theorem distance_append {word word' : List UInt8} (left right : List UInt8) (h : word.length = 8)
    (h' : word'.length = 8) : distance (word ++ left) (word' ++ right) = hamming word word' + distance left right := by
  have hword := countOnes_fromLe (h.trans h'.symm)
  rw [h] at hword
  rw [distance, chunksExact_append h (by decide), chunksExact_append h' (by decide), remainder_append h (by decide),
    remainder_append h' (by decide), distance]
  simp only [foldl_add, List.zip_cons_cons, List.map_cons, List.sum_cons, hword]
  omega

theorem distance_short {left right : List UInt8} (h : left.length < 8) (hlen : left.length = right.length) :
    distance left right = hamming left right := by
  rw [distance, chunksExact_short h, remainder_short h, remainder_short (hlen ▸ h)]
  simp only [foldl_add, List.zip_nil_left, List.map_nil, List.sum_nil, Nat.zero_add]
  clear h
  induction left generalizing right with
  | nil => rfl
  | cons a left ih =>
    cases right with
    | nil => cases hlen
    | cons b right =>
      rw [List.zip_cons_cons, List.map_cons, List.sum_cons, ih (Nat.succ.inj hlen), hamming_cons]

/-- Word by word and byte by byte, the differing bits are counted. -/
theorem distance_eq_hamming {left right : List UInt8} (hlen : left.length = right.length) :
    distance left right = hamming left right := by
  induction hn : left.length using Nat.strongRecOn generalizing left right with
  | ind n ih =>
    by_cases h : left.length < 8
    · exact distance_short h hlen
    · have hword : (left.take 8).length = 8 := by
        rw [List.length_take]
        omega
      have hword' : (right.take 8).length = 8 := by
        rw [List.length_take]
        omega
      have hrest : (left.drop 8).length = (right.drop 8).length := by
        rw [List.length_drop, List.length_drop, hlen]
      have hdistance := ih (n - 8) (by omega) hrest (by rw [List.length_drop, hn])
      rw [← List.take_append_drop 8 left, ← List.take_append_drop 8 right, distance_append _ _ hword hword',
        hdistance, hamming_append _ _ (hword.trans hword'.symm)]

/-- A distance is counted in 32 bits; no code is long enough to pass them. -/
theorem distance_lt {left right : List UInt8} (hlen : left.length = right.length) (h : left.length < 2 ^ 29) :
    distance left right < 2 ^ 32 := by
  have hle := hamming_le left right
  rw [distance_eq_hamming hlen]
  omega

/-! ## Tables and maps -/

inductive TableOp where
  | upsert (slot : Int) (code : List UInt8)
  | remove (slot : Int)
  | clear

namespace CodeTable

def apply (t : CodeTable) : TableOp → CodeTable
  | .upsert slot code => (t.upsert slot code).1
  | .remove slot => (t.remove slot).1
  | .clear => t.clear

end CodeTable

/-- What an operation means for the codes of the slots. -/
def TableOp.meaning (stride : Nat) (m : OrdMap Int (List UInt8)) : TableOp → OrdMap Int (List UInt8)
  | .upsert slot code => if code.length = stride then m.insert slot code else m
  | .remove slot => m.erase slot
  | .clear => OrdMap.empty

/-- The entries of a map as candidates. -/
def candidates (query : List UInt8) (m : OrdMap Int (List UInt8)) : List Candidate :=
  m.entries.map fun entry => ⟨hamming query entry.2, entry.1⟩

namespace CodeTable

/-- A table of codes of this width holds a map. -/
structure Holds (stride : Nat) (t : CodeTable) (m : OrdMap Int (List UInt8)) : Prop where
  stride : t.stride = stride
  code : ∀ slot, t.code slot = m.get slot

variable {stride : Nat} {t : CodeTable} {m : OrdMap Int (List UInt8)}

theorem holds_new (stride : Nat) : Holds stride (new stride) OrdMap.empty := ⟨rfl, fun slot => by simp⟩

theorem Holds.apply (h : Holds stride t m) (op : TableOp) : Holds stride (t.apply op) (op.meaning stride m) := by
  cases op with
  | upsert slot code =>
    refine ⟨(stride_upsert t slot code).trans h.stride, ?_⟩
    intro other
    rw [CodeTable.apply, TableOp.meaning]
    by_cases hcode : code.length = stride
    · rw [if_pos hcode, code_upsert (hcode.trans h.stride.symm), OrdMap.get_insert, h.code]
    · rw [if_neg hcode, upsert, dif_neg (h.stride ▸ hcode), h.code]
  | remove slot =>
    refine ⟨(stride_remove t slot).trans h.stride, ?_⟩
    intro other
    rw [CodeTable.apply, TableOp.meaning, code_remove, OrdMap.get_erase, h.code]
  | clear =>
    refine ⟨h.stride, ?_⟩
    intro other
    rw [CodeTable.apply, clear, code_new]
    rfl

theorem holds_foldl (ops : List TableOp) (h : Holds stride t m) :
    Holds stride (ops.foldl CodeTable.apply t) (ops.foldl (TableOp.meaning stride) m) := by
  induction ops generalizing t m with
  | nil => exact h
  | cons op ops ih => exact ih (h.apply op)

/-- The entries lie in the table in some order. -/
theorem Holds.entries_perm (h : Holds stride t m) : t.entries.Perm m.entries := by
  rw [List.perm_ext_iff_of_nodup t.nodup_entries m.nodup_entries]
  rintro ⟨slot, code⟩
  rw [mem_entries, h.code, OrdMap.get_eq_some]

theorem length_code {slot : Int} {code : List UInt8} (h : t.code slot = some code) : code.length = t.stride := by
  obtain ⟨p, hp, rfl⟩ := code_eq_some.mp h
  exact length_block t.width (List.getElem?_eq_some_iff.mp hp).1

/-- The scan visits the entries of the table. -/
theorem scored_eq (hpos : 0 < t.stride) (query : List UInt8) :
    t.scored query = t.entries.map fun entry => ⟨distance query entry.2, entry.1⟩ := by
  have hdiv : t.data.length / t.stride = t.slots.length := by
    rw [t.width, Nat.mul_div_cancel _ hpos]
  rw [scored, chunksExact, hdiv, entries]
  apply List.ext_getElem
  · simp
  · intro i _ _
    simp

/-- The scan scores by the Hamming distance. -/
theorem scored_hamming (hpos : 0 < t.stride) {query : List UInt8} (h : query.length = t.stride) :
    t.scored query = t.entries.map fun entry => ⟨hamming query entry.2, entry.1⟩ := by
  rw [scored_eq hpos]
  apply List.map_congr_left
  rintro ⟨slot, code⟩ hentry
  rw [distance_eq_hamming (h.trans (length_code (mem_entries.mp hentry)).symm)]

theorem nearest_nil {selector : Selector Candidate.le} {query : List UInt8}
    (h : query.length ≠ t.stride) (width : Nat) : t.nearest selector query width = [] := by
  rw [nearest, if_pos (Or.inr (Or.inr h))]

/-- The answer is the beginning of the sorted scan. -/
theorem nearest_eq_take (selector : Selector Candidate.le) (hpos : 0 < t.stride) {query : List UInt8}
    (h : query.length = t.stride) (width : Nat) :
    t.nearest selector query width = ((t.scored query).mergeSort Candidate.le).take width := by
  have hlength : (t.scored query).length = t.slots.length := by
    rw [scored_eq hpos, List.length_map, entries, List.length_map, List.length_zipIdx]
  by_cases hnone : width = 0 ∨ t.slots = []
  · rw [nearest, if_pos (or_assoc.mp (Or.inl hnone))]
    rcases hnone with rfl | hnil
    · rw [List.take_zero]
    · rw [hnil, List.length_nil] at hlength
      rw [List.length_eq_zero_iff.mp hlength, List.mergeSort_nil, List.take_nil]
  · obtain ⟨hwidth, hslots⟩ := not_or.mp hnone
    have hsome : 0 < (t.scored query).length := hlength ▸ List.length_pos_iff.mpr hslots
    have hpivot : min width (t.scored query).length - 1 < (t.scored query).length := by omega
    have hkeep : min width (t.scored query).length - 1 + 1 = min width (t.scored query).length := by omega
    have hselected := (selector.selected _ _ hpivot).sort_take linear_le hpivot
    rw [hkeep] at hselected
    have hthree : ¬ (width = 0 ∨ t.slots = [] ∨ query.length ≠ t.stride) := by
      rintro (hw | hs | hq)
      · exact hwidth hw
      · exact hslots hs
      · exact hq h
    rw [nearest, if_neg hthree, hselected, ← @List.length_mergeSort _ Candidate.le (t.scored query),
      ← List.take_eq_take_min]

/-- Whatever the operations were, the table holds the map they describe, every slot once, and a query of the
table's width is answered with as many as were asked for of the map's entries, by distance and slot. -/
theorem nearest_runs (selector : Selector Candidate.le) {stride : Nat} (hpos : 0 < stride) (ops : List TableOp) :
    let t := ops.foldl CodeTable.apply (new stride)
    let m := ops.foldl (TableOp.meaning stride) OrdMap.empty
    t.slots.Nodup ∧ t.entries.Perm m.entries ∧ (∀ slot, t.code slot = m.get slot) ∧
      ∀ query width, t.nearest selector query width =
        if query.length = stride then ((candidates query m).mergeSort Candidate.le).take width else [] := by
  intro t m
  have hholds : Holds stride t m := holds_foldl ops (holds_new stride)
  refine ⟨t.nodup_slots, hholds.entries_perm, hholds.code, ?_⟩
  intro query width
  by_cases hquery : query.length = stride
  · have hstride := hholds.stride.symm
    rw [if_pos hquery, nearest_eq_take selector (hstride ▸ hpos) (hquery.trans hstride),
      scored_hamming (hstride ▸ hpos) (hquery.trans hstride), sort_perm linear_le (hholds.entries_perm.map _)]
    rfl
  · rw [if_neg hquery, nearest_nil (hholds.stride.symm ▸ hquery)]

/-- One of three codes is replaced, and the first one removed. -/
theorem nearest_runs_replaced :
    0 < 1 ∧
      let ops : List TableOp := [.upsert 7 [0x00], .upsert 3 [0x0F], .upsert 5 [0xF0], .upsert 3 [0x01], .remove 7]
      (ops.foldl CodeTable.apply (new 1)).nearest (Selector.sorting linear_le) [0x03] 1 = [⟨1, 3⟩] := by
  refine ⟨by decide, ?_⟩
  have h := (@nearest_runs (Selector.sorting linear_le) 1 (by decide)
    [.upsert 7 [0x00], .upsert 3 [0x0F], .upsert 5 [0xF0], .upsert 3 [0x01], .remove 7]).2.2.2 [0x03] 1
  have hentries : candidates [0x03] ([.upsert 7 [0x00], .upsert 3 [0x0F], .upsert 5 [0xF0], .upsert 3 [0x01],
      .remove 7].foldl (TableOp.meaning 1) OrdMap.empty) = [⟨1, 3⟩, ⟨6, 5⟩] := by decide +kernel
  rw [hentries, List.mergeSort_of_pairwise (by decide)] at h
  exact h

end CodeTable

end SupraHarness.Vector
