import Mathlib.Data.Int.Order.Basic
import SupraHarness.Lib.Fitting
import SupraHarness.Lib.OrdMap
import SupraHarness.Lib.Run

/-!
# The cache of exact vectors

The second tier of the index: vectors by slot, the slots in the order of their last access, and
the bytes of the vectors. The order is keyed by a counter of accesses, so that its entries are the
slots from the least recent to the most recent. The three agree after every run: read along the
order, the cache is a recency list whose weight is the byte count.
-/
namespace SupraHarness.Vector

open Fitting Recency

structure Cached (α : Type) where
  vector : List α
  tick : Nat
  deriving DecidableEq, Repr

/-- A bounded, least-recently-used cache of vectors over `α`, the 32-bit floats. -/
structure ExactCache (α : Type) where
  budgetBytes : Nat
  usedBytes : Nat
  tick : Nat
  vectors : OrdMap Int (Cached α)
  order : OrdMap Nat Int
  hits : Nat
  misses : Nat
  evictions : Nat

variable {α : Type}

/-- `vector.len() * size_of::<f32>()` -/
def vectorBytes (vector : List α) : Nat := vector.length * 4

namespace ExactCache

/-! ## The operations -/

def new (budgetBytes : Nat) : ExactCache α where
  budgetBytes := budgetBytes
  usedBytes := 0
  tick := 0
  vectors := OrdMap.empty
  order := OrdMap.empty
  hits := 0
  misses := 0
  evictions := 0

/-- Look one up, recording the access. -/
def get (c : ExactCache α) (slot : Int) : ExactCache α × Option (List α) :=
  match c.vectors.get slot with
  | none => ({ c with misses := c.misses + 1 }, none)
  | some entry =>
    ({ c with
        tick := c.tick + 1
        vectors := c.vectors.insert slot { entry with tick := c.tick + 1 }
        order := (c.order.erase entry.tick).insert (c.tick + 1) slot
        hits := c.hits + 1 }, some entry.vector)

/-- `vectors.remove(&slot)`, and what every caller of it does with the entry that was there. -/
def dropVector (c : ExactCache α) (slot : Int) : ExactCache α :=
  match c.vectors.get slot with
  | none => c
  | some entry =>
    { c with
      vectors := c.vectors.erase slot
      usedBytes := c.usedBytes - vectorBytes entry.vector }

/-- `none` when there is nothing to evict. -/
def evictOne (c : ExactCache α) : Option (ExactCache α) :=
  match c.order.entries with
  | [] => none
  | (tick, slot) :: _ =>
    let c := { c with order := c.order.erase tick }
    let c := c.dropVector slot
    some { c with evictions := c.evictions + 1 }

/-- Remove the entry of a slot from the map and from the order; `none` when there is none. -/
def removeEntry (c : ExactCache α) (slot : Int) : Option (ExactCache α) :=
  (c.vectors.get slot).map fun entry =>
    { c.dropVector slot with order := c.order.erase entry.tick }

/-- `while self.used_bytes + bytes > self.budget_bytes`, for at most as many passes as there are
entries in the order: each pass takes one out. -/
def makeRoom (bytes : Nat) : Nat → ExactCache α → ExactCache α
  | 0, c => c
  | passes + 1, c =>
    if c.budgetBytes < c.usedBytes + bytes then
      match c.evictOne with
      | none => c
      | some c => makeRoom bytes passes c
    else c

/-- Retain one, evicting least-recently-used entries until the budget is met. -/
def put (c : ExactCache α) (slot : Int) (vector : List α) : ExactCache α :=
  let bytes := vectorBytes vector
  if c.budgetBytes < bytes then c
  else
    let c := (c.removeEntry slot).getD c
    let c := makeRoom bytes c.order.entries.length c
    { c with
      tick := c.tick + 1
      order := c.order.insert (c.tick + 1) slot
      usedBytes := c.usedBytes + bytes
      vectors := c.vectors.insert slot ⟨vector, c.tick + 1⟩ }

/-- Drop one, if present. -/
def invalidate (c : ExactCache α) (slot : Int) : ExactCache α × Bool :=
  match c.removeEntry slot with
  | none => (c, false)
  | some c => (c, true)

/-- Drop everything but the counters. -/
def clear (c : ExactCache α) : ExactCache α :=
  { c with vectors := OrdMap.empty, order := OrdMap.empty, usedBytes := 0 }

/-! ## What is held -/

/-- The vector that is held for a slot. -/
def held (c : ExactCache α) (slot : Int) : Option (List α) := (c.vectors.get slot).map (·.vector)

theorem held_new (budgetBytes : Nat) (slot : Int) : (new budgetBytes : ExactCache α).held slot = none := rfl

theorem get_snd (c : ExactCache α) (slot : Int) : (c.get slot).2 = c.held slot := by
  unfold get held
  cases c.vectors.get slot <;> rfl

theorem held_get (c : ExactCache α) (slot other : Int) : (c.get slot).1.held other = c.held other := by
  unfold get
  cases hentry : c.vectors.get slot with
  | none => rfl
  | some entry =>
    simp only [held, OrdMap.get_insert]
    by_cases ho : other = slot
    · rw [if_pos ho, ho, hentry]
      rfl
    · rw [if_neg ho]

/-- The cache holds nothing that the other one does not hold. -/
def Within (c d : ExactCache α) : Prop := ∀ slot vector, c.held slot = some vector → d.held slot = some vector

theorem held_dropVector {c : ExactCache α} {slot other : Int} {vector : List α}
    (h : (c.dropVector slot).held other = some vector) : other ≠ slot ∧ c.held other = some vector := by
  unfold dropVector at h
  cases hentry : c.vectors.get slot with
  | none =>
    rw [hentry] at h
    refine ⟨?_, h⟩
    rintro rfl
    rw [held, hentry] at h
    cases h
  | some entry =>
    simp only [hentry, held, OrdMap.get_erase] at h
    by_cases ho : other = slot
    · rw [if_pos ho] at h
      cases h
    · rw [if_neg ho] at h
      exact ⟨ho, h⟩

theorem within_evictOne {c d : ExactCache α} (h : c.evictOne = some d) : Within d c := by
  intro slot vector hheld
  unfold evictOne at h
  cases horder : c.order.entries with
  | nil =>
    rw [horder] at h
    cases h
  | cons entry entries =>
    rw [horder] at h
    cases h
    exact (held_dropVector (c := { c with order := c.order.erase entry.1 }) hheld).2

theorem within_makeRoom (bytes passes : Nat) (c : ExactCache α) : Within (makeRoom bytes passes c) c := by
  induction passes generalizing c with
  | zero => exact fun _ _ h => h
  | succ passes ih =>
    intro slot vector h
    rw [makeRoom] at h
    split at h
    · cases hevict : c.evictOne with
      | none =>
        rw [hevict] at h
        exact h
      | some d =>
        rw [hevict] at h
        exact within_evictOne hevict slot vector (ih d slot vector h)
    · exact h

theorem held_removeEntry {c : ExactCache α} {slot other : Int} {vector : List α}
    (h : ((c.removeEntry slot).getD c).held other = some vector) : other ≠ slot ∧ c.held other = some vector := by
  unfold removeEntry at h
  cases hentry : c.vectors.get slot with
  | none =>
    rw [hentry] at h
    refine ⟨?_, h⟩
    rintro rfl
    rw [Option.map_none, Option.getD_none, held, hentry] at h
    cases h
  | some entry =>
    rw [hentry] at h
    exact held_dropVector h

/-- After a vector is put, it is held, or what was held before. -/
theorem held_put {c : ExactCache α} {slot other : Int} {vector found : List α}
    (h : (c.put slot vector).held other = some found) : (other = slot ∧ found = vector) ∨ c.held other = some found := by
  by_cases hbig : c.budgetBytes < vectorBytes vector
  · simp only [put, if_pos hbig] at h
    exact Or.inr h
  · simp only [put, if_neg hbig, held, OrdMap.get_insert] at h
    by_cases ho : other = slot
    · rw [if_pos ho] at h
      cases h
      exact Or.inl ⟨ho, rfl⟩
    · rw [if_neg ho] at h
      exact Or.inr (held_removeEntry (within_makeRoom _ _ _ other found h)).2

theorem held_invalidate {c : ExactCache α} {slot other : Int} {vector : List α}
    (h : (c.invalidate slot).1.held other = some vector) : other ≠ slot ∧ c.held other = some vector := by
  apply held_removeEntry
  unfold invalidate at h
  cases hremove : c.removeEntry slot with
  | none =>
    rw [hremove] at h
    exact h
  | some d =>
    rw [hremove] at h
    exact h

/-! ## The order, the map and the count agree -/

/-- The entries along the order, the least recent first. -/
def recency (c : ExactCache α) : List (Int × List α) :=
  c.order.entries.filterMap fun e => (c.vectors.get e.2).map fun entry => (e.2, entry.vector)

def logBytes (e : Nat × Int × List α) : Nat := vectorBytes e.2.2

/-- The order and the map are two readings of one list of entries, and the count is its weight. -/
structure Logs (c : ExactCache α) (log : List (Nat × Int × List α)) : Prop where
  order : c.order.entries = log.map fun e => (e.1, e.2.1)
  vectors : ∀ slot tick vector, c.vectors.get slot = some ⟨vector, tick⟩ ↔ (tick, slot, vector) ∈ log
  fresh : ∀ e ∈ log, e.1 ≤ c.tick
  used : c.usedBytes = total logBytes log

variable {c : ExactCache α} {log before after : List (Nat × Int × List α)} {tick : Nat} {slot : Int}
  {vector : List α}

theorem Logs.ascending (h : Logs c log) : log.Pairwise fun a b => a.1 < b.1 := by
  have hsorted := c.order.sorted
  rw [h.order, List.pairwise_map] at hsorted
  exact hsorted

/-- No slot is listed twice. -/
theorem Logs.slots_nodup (h : Logs c log) : (log.map fun e => e.2.1).Nodup := by
  rw [List.Nodup, List.pairwise_map]
  apply h.ascending.imp_of_mem
  rintro ⟨t, s, v⟩ ⟨t', s', v'⟩ ha hb hlt heq
  obtain rfl : s = s' := heq
  have hsame := (h.vectors s t v).mpr ha
  rw [(h.vectors s t' v').mpr hb] at hsame
  cases hsame
  exact Nat.lt_irrefl _ hlt

theorem Logs.recency (h : Logs c log) : c.recency = log.map Prod.snd := by
  rw [ExactCache.recency, h.order, List.filterMap_map]
  rw [← List.filterMap_eq_map]
  apply List.filterMap_congr
  rintro ⟨t, s, v⟩ he
  simp [(h.vectors s t v).mpr he]

/-- The other entries, where an entry stands between them. -/
theorem Logs.others (h : Logs c (before ++ (tick, slot, vector) :: after)) :
    ∀ e ∈ before ++ after, e.1 ≠ tick ∧ e.2.1 ≠ slot := by
  have hticks := h.ascending
  have hslots := h.slots_nodup
  rw [List.pairwise_append, List.pairwise_cons] at hticks
  rw [List.map_append, List.map_cons, List.nodup_middle, List.nodup_cons, ← List.map_append] at hslots
  intro e he
  refine ⟨?_, fun heq => hslots.1 (List.mem_map.mpr ⟨e, he, heq⟩)⟩
  rcases List.mem_append.mp he with he | he
  · exact Nat.ne_of_lt (hticks.2.2 e he _ List.mem_cons_self)
  · exact Nat.ne_of_gt (hticks.2.1.1 e he)

/-- An entry is taken out of the order and of the map. -/
theorem Logs.drop (h : Logs c (before ++ (tick, slot, vector) :: after)) :
    Logs { c.dropVector slot with order := c.order.erase tick } (before ++ after) := by
  have hothers := h.others
  have hentry := (h.vectors slot tick vector).mpr (by simp)
  constructor
  · have hkeep : ∀ l : List (Nat × Int × List α), (∀ e ∈ l, e.1 ≠ tick) →
        (l.map fun e => (e.1, e.2.1)).filter (fun entry => entry.1 ≠ tick) = l.map fun e => (e.1, e.2.1) := by
      intro l hl
      rw [List.filter_eq_self]
      intro entry hentry
      obtain ⟨e, he, rfl⟩ := List.mem_map.mp hentry
      simpa using hl e he
    rw [OrdMap.entries_erase, h.order, List.map_append, List.map_cons, List.filter_append,
      List.filter_cons_of_neg (by simp), List.map_append,
      hkeep before fun e he => (hothers e (List.mem_append_left _ he)).1,
      hkeep after fun e he => (hothers e (List.mem_append_right _ he)).1]
  · intro other t v
    simp only [dropVector, hentry, OrdMap.get_erase]
    by_cases ho : other = slot
    · rw [if_pos ho]
      refine iff_of_false nofun ?_
      intro hmem
      exact (hothers _ hmem).2 ho
    · rw [if_neg ho, h.vectors]
      simp [ho]
  · intro e he
    have hle := h.fresh e (by
      rw [List.mem_append] at he
      rw [List.mem_append, List.mem_cons]
      tauto)
    simpa only [dropVector, hentry] using hle
  · have hused := h.used
    rw [total_append, total_cons] at hused
    simp only [dropVector, hentry, hused, total_append, logBytes]
    omega

/-- An entry is added behind all others. -/
theorem Logs.add (h : Logs c log) (hnew : ∀ e ∈ log, e.2.1 ≠ slot) (vector : List α) :
    Logs { c with
      tick := c.tick + 1
      order := c.order.insert (c.tick + 1) slot
      usedBytes := c.usedBytes + vectorBytes vector
      vectors := c.vectors.insert slot ⟨vector, c.tick + 1⟩ } (log ++ [(c.tick + 1, slot, vector)]) := by
  constructor
  · have hlast : ∀ entry ∈ c.order.entries, entry.1 < c.tick + 1 := by
      rw [h.order]
      rintro entry hentry
      obtain ⟨e, he, rfl⟩ := List.mem_map.mp hentry
      exact Nat.lt_succ_of_le (h.fresh e he)
    rw [OrdMap.entries_insert_last hlast, h.order, List.map_append]
    rfl
  · intro other t v
    rw [OrdMap.get_insert, List.mem_append, List.mem_singleton, Prod.mk.injEq, Prod.mk.injEq]
    by_cases ho : other = slot
    · rw [if_pos ho, Option.some.injEq, Cached.mk.injEq]
      have hno : (t, other, v) ∉ log := fun hmem => hnew _ hmem ho
      constructor
      · rintro ⟨rfl, rfl⟩
        exact Or.inr ⟨rfl, ho, rfl⟩
      · rintro (hmem | ⟨rfl, -, rfl⟩)
        · exact absurd hmem hno
        · exact ⟨rfl, rfl⟩
    · rw [if_neg ho, h.vectors]
      simp [ho]
  · intro e he
    rcases List.mem_append.mp he with he | he
    · exact Nat.le_succ_of_le (h.fresh e he)
    · rw [List.mem_singleton.mp he]
  · simp [h.used, logBytes]

/-! ## What the operations do to the entries -/

/-- The entries of other slots. -/
def besides (slot : Int) (log : List (Nat × Int × List α)) : List (Nat × Int × List α) :=
  log.filter fun e => e.2.1 ≠ slot

theorem mem_besides {e : Nat × Int × List α} : e ∈ besides slot log ↔ e ∈ log ∧ e.2.1 ≠ slot := by
  simp [besides]

theorem snd_besides (slot : Int) (log : List (Nat × Int × List α)) :
    (besides slot log).map Prod.snd = without slot (log.map Prod.snd) := by
  rw [besides, without, List.filter_map]
  rfl

theorem Logs.split (h : Logs c log) {entry : Cached α} (hentry : c.vectors.get slot = some entry) :
    ∃ before after, log = before ++ (entry.tick, slot, entry.vector) :: after ∧
      besides slot log = before ++ after := by
  obtain ⟨before, after, rfl⟩ := List.append_of_mem ((h.vectors slot entry.tick entry.vector).mp hentry)
  refine ⟨before, after, rfl, ?_⟩
  have hothers := h.others
  have hkeep : besides slot (before ++ after) = before ++ after := by
    rw [besides, List.filter_eq_self]
    intro e he
    simpa using (hothers e he).2
  rw [besides, List.filter_append] at hkeep ⊢
  rw [List.filter_cons_of_neg (by simp), hkeep]

theorem Logs.absent (h : Logs c log) (hentry : c.vectors.get slot = none) : besides slot log = log := by
  rw [besides, List.filter_eq_self]
  rintro ⟨t, s, v⟩ he
  have hsome := (h.vectors s t v).mpr he
  have hne : s ≠ slot := by
    rintro rfl
    rw [hentry] at hsome
    cases hsome
  simpa using hne

theorem Logs.removeEntry (h : Logs c log) (slot : Int) :
    Logs ((c.removeEntry slot).getD c) (besides slot log) := by
  rw [ExactCache.removeEntry]
  cases hentry : c.vectors.get slot with
  | none =>
    rw [h.absent hentry]
    exact h
  | some entry =>
    obtain ⟨before, after, rfl, hothers⟩ := h.split hentry
    rw [hothers]
    exact h.drop

theorem Logs.evictOne {e : Nat × Int × List α} (h : Logs c (e :: log)) :
    ∃ c', c.evictOne = some c' ∧ Logs c' log ∧ c'.budgetBytes = c.budgetBytes := by
  obtain ⟨t, s, v⟩ := e
  have hentry := (h.vectors s t v).mpr List.mem_cons_self
  have hdrop := @Logs.drop α c [] log t s v h
  rw [ExactCache.evictOne, h.order, List.map_cons]
  refine ⟨_, rfl, ?_, ?_⟩
  · simp only [dropVector, hentry] at hdrop ⊢
    exact ⟨hdrop.order, hdrop.vectors, hdrop.fresh, hdrop.used⟩
  · simp only [dropVector, hentry]

/-- Entries are evicted from the front until the new vector fits. -/
theorem Logs.makeRoom (h : Logs c log) {bytes : Nat} (hbytes : bytes ≤ c.budgetBytes) :
    Logs (makeRoom bytes log.length c) (shed logBytes (c.budgetBytes - bytes) log) ∧
      (makeRoom bytes log.length c).budgetBytes = c.budgetBytes := by
  induction log generalizing c with
  | nil => exact ⟨h, rfl⟩
  | cons e log ih =>
    have hused := h.used
    rw [List.length_cons, ExactCache.makeRoom, shed]
    by_cases hfull : c.budgetBytes < c.usedBytes + bytes
    · have hover : ¬ total logBytes (e :: log) ≤ c.budgetBytes - bytes := by omega
      obtain ⟨c', hevict, hlogs, hbudget⟩ := h.evictOne
      rw [if_pos hfull, if_neg hover, hevict, ← hbudget]
      exact ih hlogs (hbudget ▸ hbytes)
    · have hfits : total logBytes (e :: log) ≤ c.budgetBytes - bytes := by omega
      rw [if_neg hfull, if_pos hfits]
      exact ⟨h, rfl⟩

theorem budgetBytes_removeEntry (c : ExactCache α) (slot : Int) :
    ((c.removeEntry slot).getD c).budgetBytes = c.budgetBytes := by
  rw [ExactCache.removeEntry]
  cases hentry : c.vectors.get slot with
  | none => rfl
  | some entry => simp [dropVector, hentry]

theorem put_oversize (hbytes : c.budgetBytes < vectorBytes vector) : c.put slot vector = c := by
  rw [put, if_pos hbytes]

/-- What a vector that fits leaves of the entries of other slots. -/
theorem Logs.put (h : Logs c log) (slot : Int) (hbytes : vectorBytes vector ≤ c.budgetBytes) :
    ∃ tick, Logs (c.put slot vector)
        (shed logBytes (c.budgetBytes - vectorBytes vector) (besides slot log) ++ [(tick, slot, vector)]) ∧
      (c.put slot vector).budgetBytes = c.budgetBytes := by
  have hremoved := h.removeEntry slot
  have hlength : (besides slot log).length = ((c.removeEntry slot).getD c).order.entries.length := by
    rw [hremoved.order, List.length_map]
  have hbudget := budgetBytes_removeEntry c slot
  obtain ⟨hroom, hsame⟩ := hremoved.makeRoom (hbudget.symm ▸ hbytes)
  rw [hbudget] at hroom hsame
  rw [hlength] at hroom hsame
  have hnew : ∀ e ∈ shed logBytes (c.budgetBytes - vectorBytes vector) (besides slot log), e.2.1 ≠ slot := by
    intro e he
    exact (mem_besides.mp ((shed_suffix _).mem he)).2
  have hadd := hroom.add hnew vector
  rw [ExactCache.put, if_neg (Nat.not_lt.mpr hbytes)]
  exact ⟨_, hadd, hsame⟩

theorem Logs.get (h : Logs c log) {entry : Cached α} (hentry : c.vectors.get slot = some entry) :
    Logs (c.get slot).1 (besides slot log ++ [(c.tick + 1, slot, entry.vector)]) := by
  obtain ⟨before, after, hlog, hothers⟩ := h.split hentry
  have hused : vectorBytes entry.vector ≤ c.usedBytes := by
    rw [h.used, hlog, total_append, total_cons]
    simp only [logBytes]
    omega
  have hnew : ∀ e ∈ before ++ after, e.2.1 ≠ slot := by
    intro e he
    rw [← hothers] at he
    exact (mem_besides.mp he).2
  rw [hlog] at h
  have hadd := h.drop.add hnew entry.vector
  have hinsert : (c.vectors.erase slot).insert slot ⟨entry.vector, c.tick + 1⟩ =
      c.vectors.insert slot ⟨entry.vector, c.tick + 1⟩ := by
    apply OrdMap.ext_get
    intro key
    rw [OrdMap.get_insert, OrdMap.get_insert, OrdMap.get_erase]
    by_cases hkey : key = slot
    · rw [if_pos hkey, if_pos hkey]
    · rw [if_neg hkey, if_neg hkey, if_neg hkey]
  simp only [dropVector, hentry, hinsert, Nat.sub_add_cancel hused] at hadd
  rw [hothers, ExactCache.get, hentry]
  exact ⟨hadd.order, hadd.vectors, hadd.fresh, hadd.used⟩

theorem logs_empty (hvectors : c.vectors = OrdMap.empty) (horder : c.order = OrdMap.empty) (hused : c.usedBytes = 0) :
    Logs c [] := by
  constructor
  · rw [horder]
    rfl
  · simp [hvectors]
  · simp
  · rw [hused]
    rfl

/-! ## Whole runs -/

inductive Op (α : Type) where
  | get (slot : Int)
  | put (slot : Int) (vector : List α)
  | invalidate (slot : Int)
  | clear

def apply (c : ExactCache α) : Op α → ExactCache α
  | .get slot => (c.get slot).1
  | .put slot vector => c.put slot vector
  | .invalidate slot => (c.invalidate slot).1
  | .clear => c.clear

/-- The slot that an operation uses: one that is found, or one whose vector is retained. -/
def usedSlot (c : ExactCache α) : Op α → List Int
  | .get slot => if (c.vectors.get slot).isSome then [slot] else []
  | .put slot vector => if c.budgetBytes < vectorBytes vector then [] else [slot]
  | .invalidate _ => []
  | .clear => []

/-- A cache, and the slots that were used so far. -/
def step (s : ExactCache α × List Int) (op : Op α) : ExactCache α × List Int :=
  (s.1.apply op, s.2 ++ s.1.usedSlot op)

/-- Within its budget, a cache lists its entries in the order of their last uses. -/
def Inv (budget : Nat) (s : ExactCache α × List Int) : Prop :=
  ∃ log, Logs s.1 log ∧ Follows s.2 (log.map Prod.snd) ∧ s.1.usedBytes ≤ budget ∧ s.1.budgetBytes = budget

variable {budget : Nat} {uses : List Int}

theorem Logs.inv (h : Logs c log) (hfollows : Follows uses (log.map Prod.snd))
    (hwithin : total logBytes log ≤ budget) (hbudget : c.budgetBytes = budget) : Inv budget (c, uses) :=
  ⟨log, h, hfollows, h.used ▸ hwithin, hbudget⟩

theorem inv_new (budget : Nat) : Inv budget ((new budget : ExactCache α), []) :=
  (logs_empty rfl rfl rfl).inv (List.Sublist.refl _) (Nat.zero_le _) rfl

/-- A slot that is used goes behind the others. -/
theorem follows_use (h : Follows uses (log.map Prod.snd)) {kept : List (Nat × Int × List α)}
    (hkept : kept.Sublist (besides slot log)) (tick : Nat) (vector : List α) :
    Follows (uses ++ [slot]) ((kept ++ [(tick, slot, vector)]).map Prod.snd) := by
  rw [List.map_append]
  have hsub := hkept.map Prod.snd
  rw [snd_besides] at hsub
  apply ((h.without slot).sublist hsub).use
  intro e he
  exact (mem_without.mp (hsub.mem he)).2

theorem step_inv (s : ExactCache α × List Int) (op : Op α) (h : Inv budget s) : Inv budget (step s op) := by
  obtain ⟨c, uses⟩ := s
  obtain ⟨log, hlogs, hfollows, hwithin, hbudget⟩ := h
  simp only at hlogs hfollows hwithin hbudget
  rw [hlogs.used] at hwithin
  cases op with
  | get slot =>
    rw [step, ExactCache.apply, usedSlot]
    cases hentry : c.vectors.get slot with
    | none =>
      rw [ExactCache.get, hentry]
      simp only [Option.isSome_none, Bool.false_eq_true, if_false, List.append_nil]
      exact ⟨log, ⟨hlogs.order, hlogs.vectors, hlogs.fresh, hlogs.used⟩, hfollows, hlogs.used ▸ hwithin, hbudget⟩
    | some entry =>
      have hget := hlogs.get hentry
      have hsame : (c.get slot).1.usedBytes = c.usedBytes ∧ (c.get slot).1.budgetBytes = c.budgetBytes := by
        rw [ExactCache.get, hentry]
        exact ⟨rfl, rfl⟩
      refine ⟨_, hget, follows_use hfollows (List.Sublist.refl _) _ _, ?_, ?_⟩
      · simp only [hsame.1, hlogs.used, hwithin]
      · simp only [hsame.2, hbudget]
  | put slot vector =>
    rw [step, ExactCache.apply, usedSlot]
    by_cases hbytes : c.budgetBytes < vectorBytes vector
    · rw [if_pos hbytes, put_oversize hbytes, List.append_nil]
      exact hlogs.inv hfollows hwithin hbudget
    · obtain ⟨tick, hput, hsame⟩ := hlogs.put slot (Nat.le_of_not_lt hbytes)
      have hroom := @total_shed_le _ logBytes (c.budgetBytes - vectorBytes vector) (besides slot log)
      rw [if_neg hbytes]
      apply hput.inv (follows_use hfollows (shed_suffix _).sublist tick vector)
      · rw [total_append, total_cons, total_nil]
        simp only [logBytes] at hroom ⊢
        omega
      · rw [hsame, hbudget]
  | invalidate slot =>
    have hremoved := hlogs.removeEntry slot
    have hsame : (c.invalidate slot).1 = (c.removeEntry slot).getD c := by
      rw [ExactCache.invalidate]
      cases c.removeEntry slot <;> rfl
    rw [step, ExactCache.apply, usedSlot, List.append_nil, hsame]
    apply hremoved.inv
    · rw [snd_besides]
      exact hfollows.without slot
    · exact (total_le_of_sublist List.filter_sublist).trans hwithin
    · rw [budgetBytes_removeEntry, hbudget]
  | clear =>
    rw [step, ExactCache.apply, usedSlot, List.append_nil]
    exact (logs_empty rfl rfl rfl).inv (List.nil_sublist _) (Nat.zero_le _) hbudget

theorem foldl_step_inv (ops : List (Op α)) {s : ExactCache α × List Int} (h : Inv budget s) :
    Inv budget (ops.foldl step s) := by
  induction ops generalizing s with
  | nil => exact h
  | cons op ops ih => exact ih (step_inv s op h)

/-- The order, the map and the byte count of a cache agree. -/
structure Consistent (c : ExactCache α) : Prop where
  sameKeys : (c.order.entries.map Prod.snd).Perm c.vectors.keys
  nodup : (c.order.entries.map Prod.snd).Nodup
  slots : c.recency.map Prod.fst = c.order.entries.map Prod.snd
  stored : ∀ slot vector, (slot, vector) ∈ c.recency ↔ ∃ tick, c.vectors.get slot = some ⟨vector, tick⟩
  used : c.usedBytes = total (fun entry => vectorBytes entry.2.vector) c.vectors.entries
  within : c.usedBytes ≤ c.budgetBytes

theorem Logs.consistent (h : Logs c log) (hwithin : c.usedBytes ≤ c.budgetBytes) : Consistent c := by
  have hentries : c.vectors.entries.Perm (log.map fun e => (e.2.1, (⟨e.2.2, e.1⟩ : Cached α))) := by
    have hright : (log.map fun e => (e.2.1, (⟨e.2.2, e.1⟩ : Cached α))).Nodup := by
      apply List.Nodup.of_map Prod.fst
      rw [List.map_map]
      exact h.slots_nodup
    rw [List.perm_ext_iff_of_nodup c.vectors.nodup_entries hright]
    rintro ⟨slot, vector, tick⟩
    rw [← OrdMap.get_eq_some, h.vectors, List.mem_map]
    constructor
    · intro hmem
      exact ⟨_, hmem, rfl⟩
    · rintro ⟨e, hmem, heq⟩
      cases heq
      exact hmem
  have horder : c.order.entries.map Prod.snd = log.map fun e => e.2.1 := by
    rw [h.order, List.map_map]
    rfl
  constructor
  · rw [horder, OrdMap.keys]
    have hkeys := hentries.map Prod.fst
    rw [List.map_map] at hkeys
    exact hkeys.symm
  · rw [horder]
    exact h.slots_nodup
  · rw [h.recency, List.map_map, horder]
    rfl
  · intro slot vector
    rw [h.recency, List.mem_map]
    simp only [h.vectors]
    constructor
    · rintro ⟨⟨tick, e⟩, hmem, rfl⟩
      exact ⟨tick, hmem⟩
    · rintro ⟨tick, hmem⟩
      exact ⟨_, hmem, rfl⟩
  · rw [h.used, total, total, (hentries.map _).sum_eq, List.map_map]
    rfl
  · exact hwithin

/-- What the retention of a vector must do: nothing when it is larger than the budget, and otherwise make
room by evicting the least recently used entries of other slots, no more than needed. -/
structure Retains (c : ExactCache α) (slot : Int) (vector : List α) : Prop where
  oversize : c.budgetBytes < vectorBytes vector → c.put slot vector = c
  evicts : vectorBytes vector ≤ c.budgetBytes →
    ∃ evicted kept, evicted ++ kept = without slot c.recency ∧
      (c.put slot vector).recency = kept ++ [(slot, vector)] ∧
      ∀ more, more <:+ without slot c.recency → kept.length < more.length →
        c.budgetBytes < total (fun e => vectorBytes e.2) more + vectorBytes vector

theorem Logs.retains (h : Logs c log) (slot : Int) (vector : List α) : Retains c slot vector := by
  refine ⟨put_oversize, ?_⟩
  intro hbytes
  obtain ⟨tick, hput, -⟩ := h.put slot hbytes
  have hsuffix := @shed_suffix _ logBytes (c.budgetBytes - vectorBytes vector) (besides slot log)
  obtain ⟨evicted, hevicted⟩ := hsuffix
  have hlonger := @lt_total_of_kept_more _ logBytes (c.budgetBytes - vectorBytes vector) (besides slot log)
  generalize shed logBytes (c.budgetBytes - vectorBytes vector) (besides slot log) = kept at hput hevicted hlonger
  refine ⟨evicted.map Prod.snd, kept.map Prod.snd, ?_, ?_, ?_⟩
  · rw [h.recency, ← snd_besides, ← hevicted, List.map_append]
  · rw [hput.recency, List.map_append]
    rfl
  · intro more hmore hlong
    rw [h.recency, ← snd_besides] at hmore
    obtain ⟨front, hfront⟩ := hmore
    obtain ⟨logFront, logMore, hlog, rfl, rfl⟩ := List.map_eq_append_iff.mp hfront.symm
    rw [List.length_map, List.length_map] at hlong
    have hover := hlonger ⟨logFront, hlog.symm⟩ hlong
    have htotal : total (fun e => vectorBytes e.2) (logMore.map Prod.snd) = total logBytes logMore := by
      rw [total, List.map_map]
      rfl
    omega

/-- After every run the cache agrees with itself, lists its entries in the order of their last uses, and
retains a vector as it should. -/
theorem cache_runs (budget : Nat) (ops : List (Op α)) :
    let s := ops.foldl step (new budget, [])
    Consistent s.1 ∧ s.1.budgetBytes = budget ∧ Follows s.2 s.1.recency ∧
      ∀ slot vector, Retains s.1 slot vector := by
  intro s
  obtain ⟨log, hlogs, hfollows, hwithin, hbudget⟩ := foldl_step_inv ops (inv_new budget : Inv budget (new budget, []))
  refine ⟨hlogs.consistent (hwithin.trans (Nat.le_of_eq hbudget.symm)), hbudget, ?_, hlogs.retains⟩
  rw [hlogs.recency]
  exact hfollows

end ExactCache

end SupraHarness.Vector
