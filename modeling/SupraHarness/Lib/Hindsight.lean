import Mathlib.Data.List.Induction
import SupraHarness.Lib.OrdMap

/-!
# Hindsight

A log of writes and reads of keys. A read is answered by the latest write of its key before it. A
reader that has the whole log first and looks every key up in one map answers in hindsight, by the
latest write of the key anywhere; it answers as the log does where no later write changes an answer.
-/
namespace SupraHarness

variable {κ β : Type}

inductive Access (κ β : Type) where
  | write (key : κ) (value : β)
  | read (key : κ)
  deriving DecidableEq, Repr

namespace Access

def asked : Access κ β → Option κ
  | write _ _ => none
  | read key => some key

/-- What was written under a key last. -/
def latest [DecidableEq κ] (key : κ) (log : List (Access κ β)) : Option β :=
  log.foldl (fun found access =>
    match access with
    | write key' value => if key = key' then some value else found
    | read _ => found) none

/-- The answers to the reads of a log that follows another. -/
def answersAfter [DecidableEq κ] (before : List (Access κ β)) : List (Access κ β) → List (Option β)
  | [] => []
  | write key value :: log => answersAfter (before ++ [write key value]) log
  | read key :: log => latest key before :: answersAfter (before ++ [read key]) log

/-- The answers to the reads of a log, each by the latest write before it. -/
def answers [DecidableEq κ] (log : List (Access κ β)) : List (Option β) := answersAfter [] log

/-- The answers by the latest write of all. -/
def hindsight [DecidableEq κ] (log : List (Access κ β)) : List (Option β) :=
  (log.filterMap asked).map fun key => latest key log

/-- Every read has a write of its key before it. -/
def Answered [DecidableEq κ] (log : List (Access κ β)) : Prop :=
  ∀ answer ∈ answers log, answer.isSome = true

instance [DecidableEq κ] (log : List (Access κ β)) : Decidable (Answered log) :=
  inferInstanceAs (Decidable (∀ answer ∈ answers log, answer.isSome = true))

/-- No read has a later write of its key with another value than the latest before it. -/
def Settled [DecidableEq κ] (log : List (Access κ β)) : Prop :=
  ∀ front key back, log = front ++ read key :: back → latest key front = latest key log

variable [DecidableEq κ]

theorem answersAfter_eq_iff (whole : κ → Option β) (log before : List (Access κ β)) :
    answersAfter before log = (log.filterMap asked).map whole ↔
      ∀ front key back, log = front ++ read key :: back →
        latest key (before ++ front) = whole key := by
  induction log generalizing before with
  | nil => simp [answersAfter]
  | cons access log ih =>
    have hlater : (∀ front key back, log = front ++ read key :: back →
          latest key (before ++ [access] ++ front) = whole key) ↔
        ∀ front key back, access :: log = access :: front ++ read key :: back →
          latest key (before ++ access :: front) = whole key := by
      simp
    cases access with
    | write key value =>
      simp only [answersAfter, List.filterMap_cons, asked]
      rw [ih, hlater]
      constructor
      · intro h front key' back heq
        cases front with
        | nil => cases heq
        | cons access front =>
          obtain ⟨rfl, -⟩ := List.cons.inj heq
          exact h front key' back heq
      · intro h front key' back heq
        exact h _ key' back heq
    | read key =>
      simp only [answersAfter, List.filterMap_cons, asked]
      rw [List.map_cons, List.cons.injEq, ih, hlater]
      constructor
      · rintro ⟨hfirst, h⟩ front key' back heq
        cases front with
        | nil =>
          obtain ⟨hread, -⟩ := List.cons.inj heq
          cases hread
          rw [List.append_nil]
          exact hfirst
        | cons access front =>
          obtain ⟨rfl, -⟩ := List.cons.inj heq
          exact h front key' back heq
      · intro h
        constructor
        · have hfirst := h [] key log rfl
          rwa [List.append_nil] at hfirst
        · intro front key' back heq
          exact h _ key' back heq

/-- Hindsight answers as the log does exactly where the log is settled. -/
theorem answers_eq_hindsight_iff (log : List (Access κ β)) :
    answers log = hindsight log ↔ Settled log :=
  answersAfter_eq_iff (fun key => latest key log) log []

theorem latest_concat_write (log : List (Access κ β)) (key key' : κ) (value : β) :
    latest key (log ++ [write key' value]) = if key = key' then some value else latest key log := by
  simp [latest]

theorem latest_concat_read (log : List (Access κ β)) (key key' : κ) :
    latest key (log ++ [read key']) = latest key log := by
  simp [latest]

theorem isSome_latest_append {key : κ} (back : List (Access κ β)) {front : List (Access κ β)}
    (h : (latest key front).isSome = true) : (latest key (front ++ back)).isSome = true := by
  induction back using List.reverseRecOn with
  | nil => rwa [List.append_nil]
  | append_singleton back access ih =>
    rw [← List.append_assoc]
    cases access with
    | read key' => rwa [latest_concat_read]
    | write key' value =>
      rw [latest_concat_write]
      by_cases hkey : key = key'
      · simp [hkey]
      · rwa [if_neg hkey]

theorem found_of_answersAfter (log before : List (Access κ β))
    (h : ∀ answer ∈ answersAfter before log, answer.isSome = true) {key : κ}
    (hkey : key ∈ log.filterMap asked) : (latest key (before ++ log)).isSome = true := by
  induction log generalizing before with
  | nil => cases hkey
  | cons access log ih =>
    rw [List.append_cons]
    cases access with
    | write key' value => exact ih _ h hkey
    | read key' =>
      rw [answersAfter, List.forall_mem_cons] at h
      rcases List.mem_cons.mp hkey with rfl | hkey
      · rw [List.append_assoc]
        exact isSome_latest_append _ h.1
      · exact ih _ h.2 hkey

/-- Where every read has a write before it, hindsight finds one too. -/
theorem Answered.found {log : List (Access κ β)} (h : Answered log) {key : κ}
    (hkey : key ∈ log.filterMap asked) : (latest key log).isSome = true :=
  found_of_answersAfter log [] h hkey

/-- The map of the writes of a log, each put in as it comes. -/
def record {κ : Type} [LinearOrder κ] (map : OrdMap κ β) : List (Access κ β) → OrdMap κ β :=
  List.foldl (fun map access =>
    match access with
    | write key value => map.insert key value
    | read _ => map) map

theorem get_record {κ : Type} [LinearOrder κ] (log : List (Access κ β)) (key : κ) :
    (record OrdMap.empty log).get key = latest key log := by
  induction log using List.reverseRecOn with
  | nil => rfl
  | append_singleton log access ih =>
    rw [record, List.foldl_append]
    cases access with
    | read key' => rw [latest_concat_read, ← ih, record]; rfl
    | write key' value =>
      rw [latest_concat_write, ← ih]
      exact OrdMap.get_insert _ key' key value

end Access
end SupraHarness
