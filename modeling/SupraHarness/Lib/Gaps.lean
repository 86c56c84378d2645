import Mathlib.Algebra.BigOperators.Group.List.Basic
import Mathlib.Algebra.GroupWithZero.Nat

/-!
# A log with gaps

A reader of a log receives some of its entries in order, each with the number of entries lost
since the one before. `Covers log deliveries pending` says that the deliveries account for the
whole log: every entry was delivered, or is counted in the gap of the next delivery, or, after
the last one, in `pending`.
-/
namespace SupraHarness.Gaps

variable {α : Type*}

/-- A delivered entry and the entries lost before it. -/
structure Gapped (α : Type*) where
  gap : Nat
  entry : α

inductive Covers : List α → List (Gapped α) → Nat → Prop where
  | done (lost : List α) : Covers lost [] lost.length
  | deliver (lost : List α) (entry : α) {log : List α} {ds : List (Gapped α)} {pending : Nat}
      (rest : Covers log ds pending) : Covers (lost ++ entry :: log) (⟨lost.length, entry⟩ :: ds) pending

theorem covers_nil : Covers ([] : List α) [] 0 := .done []

theorem covers_empty {log : List α} {pending : Nat} :
    Covers log [] pending ↔ log.length = pending :=
  ⟨fun | .done _ => rfl, fun h => h ▸ .done log⟩

theorem covers_cons {log : List α} {d : Gapped α} {ds : List (Gapped α)} {pending : Nat} :
    Covers log (d :: ds) pending ↔
      ∃ lost rest, log = lost ++ d.entry :: rest ∧ lost.length = d.gap ∧ Covers rest ds pending := by
  constructor
  · intro h
    obtain _ | ⟨lost, entry, rest⟩ := h
    exact ⟨lost, _, rfl, rfl, rest⟩
  · rintro ⟨lost, rest, rfl, hgap, h⟩
    obtain ⟨gap, entry⟩ := d
    subst hgap
    exact .deliver lost entry h

/-- One more entry, lost. -/
theorem Covers.lose {log : List α} {ds : List (Gapped α)} {pending : Nat}
    (h : Covers log ds pending) (entry : α) : Covers (log ++ [entry]) ds (pending + 1) := by
  induction h with
  | done lost => simp [covers_empty]
  | deliver lost e _ ih =>
    rw [List.append_assoc, List.cons_append]
    exact .deliver lost e ih

/-- One more entry, delivered: it takes the pending gap with it. -/
theorem Covers.push {log : List α} {ds : List (Gapped α)} {pending : Nat}
    (h : Covers log ds pending) (entry : α) :
    Covers (log ++ [entry]) (ds ++ [⟨pending, entry⟩]) 0 := by
  induction h with
  | done lost => exact .deliver lost entry covers_nil
  | deliver lost e _ ih =>
    rw [List.append_assoc, List.cons_append]
    exact .deliver lost e ih

/-- A delivery taken back: its gap and itself go to the next delivery. -/
theorem Covers.drop {log : List α} {before after : List (Gapped α)} {d next : Gapped α} {pending : Nat}
    (h : Covers log (before ++ d :: next :: after) pending) :
    Covers log (before ++ ⟨next.gap + (d.gap + 1), next.entry⟩ :: after) pending := by
  induction before generalizing log with
  | nil =>
    obtain ⟨lost, _, rfl, hd, h⟩ := covers_cons.1 h
    obtain ⟨lost', rest, rfl, hn, h⟩ := covers_cons.1 h
    refine covers_cons.2 ⟨lost ++ d.entry :: lost', rest, by simp, ?_, h⟩
    simp only [List.length_append, List.length_cons]
    omega
  | cons b before ih =>
    obtain ⟨lost, rest, rfl, hb, h⟩ := covers_cons.1 h
    exact covers_cons.2 ⟨lost, _, rfl, hb, ih h⟩

/-- The last delivery taken back: its gap and itself go to the pending one. -/
theorem Covers.drop_last {log : List α} {before : List (Gapped α)} {d : Gapped α} {pending : Nat}
    (h : Covers log (before ++ [d]) pending) : Covers log before (pending + (d.gap + 1)) := by
  induction before generalizing log with
  | nil =>
    obtain ⟨lost, rest, rfl, hd, h⟩ := covers_cons.1 h
    rw [covers_empty] at h ⊢
    simp only [List.length_append, List.length_cons]
    omega
  | cons b before ih =>
    obtain ⟨lost, rest, rfl, hb, h⟩ := covers_cons.1 h
    exact covers_cons.2 ⟨lost, _, rfl, hb, ih h⟩

/-! ## What a cover says -/

/-- Nothing is dropped from the account, and nothing counted twice. -/
theorem Covers.length {log : List α} {ds : List (Gapped α)} {pending : Nat}
    (h : Covers log ds pending) : ds.length + (ds.map Gapped.gap).sum + pending = log.length := by
  induction h with
  | done lost => simp
  | deliver lost e _ ih =>
    simp only [List.length_cons, List.map_cons, List.sum_cons, List.length_append]
    omega

theorem Covers.sublist {log : List α} {ds : List (Gapped α)} {pending : Nat}
    (h : Covers log ds pending) : (ds.map Gapped.entry).Sublist log := by
  induction h with
  | done lost => exact List.nil_sublist _
  | deliver lost e _ ih => exact (ih.cons_cons e).trans (List.sublist_append_right _ _)

/-- The entries before a delivery: up to the delivery before it, and then the lost ones. -/
theorem Covers.split {log : List α} {before after : List (Gapped α)} {d : Gapped α} {pending : Nat}
    (h : Covers log (before ++ d :: after) pending) :
    ∃ old lost rest, log = old ++ (lost ++ d.entry :: rest) ∧ lost.length = d.gap ∧
      old.getLast? = before.getLast?.map Gapped.entry := by
  induction before generalizing log with
  | nil =>
    obtain ⟨lost, rest, rfl, hd, -⟩ := covers_cons.1 h
    exact ⟨[], lost, rest, rfl, hd, rfl⟩
  | cons b before ih =>
    obtain ⟨lostb, _, rfl, -, h⟩ := covers_cons.1 h
    obtain ⟨old, lost, rest, rfl, hd, hlast⟩ := ih h
    refine ⟨lostb ++ b.entry :: old, lost, rest, by simp, hd, ?_⟩
    rw [List.getLast?_append, List.getLast?_cons, List.getLast?_cons, hlast]
    cases before.getLast? <;> rfl

/-- In a log with increasing keys, the gap of a delivery counts the entries between the delivery
before it and itself. -/
theorem Covers.gap_eq (key : α → Nat) {log : List α} {before after : List (Gapped α)}
    {d : Gapped α} {pending : Nat} (h : Covers log (before ++ d :: after) pending)
    (hk : log.Pairwise fun a b => key a < key b) :
    d.gap = (log.filter fun a =>
      (before.getLast?.all fun p => key p.entry < key a) && key a < key d.entry).length := by
  obtain ⟨old, lost, rest, rfl, hd, hlast⟩ := h.split
  obtain ⟨hold, hmid, hover⟩ := List.pairwise_append.1 hk
  obtain ⟨-, hrest, hlost⟩ := List.pairwise_append.1 hmid
  have hafter := (List.pairwise_cons.1 hrest).1
  rw [List.filter_append, List.filter_append, List.filter_cons, ← hd]
  have h1 : ∀ a ∈ old, ¬ ((before.getLast?.all fun p => key p.entry < key a) && key a < key d.entry) = true := by
    intro a ha
    cases hb : before.getLast? with
    | none =>
      rw [hb, Option.map_none, List.getLast?_eq_none_iff] at hlast
      simp [hlast] at ha
    | some p =>
      rw [hb, Option.map_some, List.getLast?_eq_some_iff] at hlast
      obtain ⟨init, rfl⟩ := hlast
      have hle : key a ≤ key p.entry := by
        rcases List.mem_append.1 ha with ha | ha
        · exact Nat.le_of_lt ((List.pairwise_append.1 hold).2.2 a ha _ (List.mem_singleton_self _))
        · exact Nat.le_of_eq (congrArg key (List.mem_singleton.1 ha))
      simp only [Option.all_some, Bool.and_eq_true, decide_eq_true_eq]
      omega
  have h2 : ∀ a ∈ lost, ((before.getLast?.all fun p => key p.entry < key a) && key a < key d.entry) = true := by
    intro a ha
    have hd := hlost a ha d.entry List.mem_cons_self
    cases hb : before.getLast? with
    | none => simpa using hd
    | some p =>
      rw [hb, Option.map_some, List.getLast?_eq_some_iff] at hlast
      obtain ⟨init, rfl⟩ := hlast
      have hp := hover p.entry (by simp) a (by simp [ha])
      simpa using ⟨hp, hd⟩
  have h3 : ∀ a ∈ rest, ¬ ((before.getLast?.all fun p => key p.entry < key a) && key a < key d.entry) = true := by
    intro a ha
    have := hafter a ha
    simp only [Bool.and_eq_true, decide_eq_true_eq]
    omega
  rw [List.filter_eq_nil_iff.2 h1, List.filter_eq_self.2 h2, List.filter_eq_nil_iff.2 h3]
  simp

end SupraHarness.Gaps
