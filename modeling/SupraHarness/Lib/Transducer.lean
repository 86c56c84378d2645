import Mathlib.Data.List.Basic

/-!
# Transducers

A transducer reads one input at a time, changes its state and writes a list of outputs. Its input
may arrive in chunks, with a `cut` applied to the state after each of them. The rules below
compare two transducers by a relation indexed by the input that is still to come.
-/
namespace SupraHarness.Transducer

variable {σ τ ι ω : Type*}

/-- The state after a whole input and everything written on the way. -/
def run (step : σ → ι → σ × List ω) : σ → List ι → σ × List ω
  | s, [] => (s, [])
  | s, i :: is =>
    let r := step s i
    let t := run step r.1 is
    (t.1, r.2 ++ t.2)

@[simp] theorem run_nil (step : σ → ι → σ × List ω) (s : σ) : run step s [] = (s, []) := rfl

@[simp] theorem run_cons (step : σ → ι → σ × List ω) (s : σ) (i : ι) (is : List ι) :
    run step s (i :: is) =
      ((run step (step s i).1 is).1, (step s i).2 ++ (run step (step s i).1 is).2) := rfl

theorem run_append (step : σ → ι → σ × List ω) (s : σ) (is js : List ι) :
    run step s (is ++ js) =
      ((run step (run step s is).1 js).1,
        (run step s is).2 ++ (run step (run step s is).1 js).2) := by
  induction is generalizing s with
  | nil => rfl
  | cons i is ih => simp only [List.cons_append, run_cons, ih, List.append_assoc]

/-- The input in chunks, with `cut` applied to the state after each. -/
def runChunks (step : σ → ι → σ × List ω) (cut : σ → σ) : σ → List (List ι) → σ × List ω
  | s, [] => (s, [])
  | s, chunk :: chunks =>
    let r := run step s chunk
    let t := runChunks step cut (cut r.1) chunks
    (t.1, r.2 ++ t.2)

@[simp] theorem runChunks_nil (step : σ → ι → σ × List ω) (cut : σ → σ) (s : σ) :
    runChunks step cut s [] = (s, []) := rfl

@[simp] theorem runChunks_cons (step : σ → ι → σ × List ω) (cut : σ → σ) (s : σ)
    (chunk : List ι) (chunks : List (List ι)) :
    runChunks step cut s (chunk :: chunks) =
      ((runChunks step cut (cut (run step s chunk).1) chunks).1,
        (run step s chunk).2 ++ (runChunks step cut (cut (run step s chunk).1) chunks).2) := rfl

/-- Two transducers that stay related write the same. -/
theorem run_simulates {f : σ → ι → σ × List ω} {g : τ → ι → τ × List ω}
    {R : List ι → σ → τ → Prop}
    (hstep : ∀ i is s t, R (i :: is) s t → (f s i).2 = (g t i).2 ∧ R is (f s i).1 (g t i).1)
    (is rest : List ι) (s : σ) (t : τ) (h : R (is ++ rest) s t) :
    (run f s is).2 = (run g t is).2 ∧ R rest (run f s is).1 (run g t is).1 := by
  induction is generalizing s t with
  | nil => exact ⟨rfl, h⟩
  | cons i is ih =>
    have hs := hstep i (is ++ rest) s t h
    have ht := ih _ _ hs.2
    simp only [run_cons]
    exact ⟨by rw [hs.1, ht.1], ht.2⟩

/-- However the first transducer's input is cut, the second reads it whole. -/
theorem runChunks_simulates {f : σ → ι → σ × List ω} {g : τ → ι → τ × List ω} {cut : σ → σ}
    {R : List ι → σ → τ → Prop}
    (hstep : ∀ i is s t, R (i :: is) s t → (f s i).2 = (g t i).2 ∧ R is (f s i).1 (g t i).1)
    (hcut : ∀ is s t, R is s t → R is (cut s) t)
    (chunks : List (List ι)) (s : σ) (t : τ) (h : R chunks.flatten s t) :
    (runChunks f cut s chunks).2 = (run g t chunks.flatten).2 ∧
      R [] (runChunks f cut s chunks).1 (run g t chunks.flatten).1 := by
  induction chunks generalizing s t with
  | nil => exact ⟨rfl, h⟩
  | cons chunk chunks ih =>
    have hr := run_simulates hstep chunk chunks.flatten s t h
    have ht := ih _ _ (hcut _ _ _ hr.2)
    simp only [runChunks_cons, List.flatten_cons, run_append]
    exact ⟨by rw [hr.1, ht.1], ht.2⟩

/-- A transducer that is behind another never catches up: what it owes is not among what the other has yet to write less
often than it writes it, and a `bad` output, which it does not owe, is one it was never to write. -/
theorem run_behind {f : σ → ι → σ × List ω} {g : τ → ι → τ × List ω} {R : σ → τ → Prop} {owed bad : ω → Bool}
    (hstep : ∀ i s t, R s t → (f s i).2.length ≤ 1 ∧ ((∃ w ∈ (f s i).2, bad w) ∨
      (R (f s i).1 (g t i).1 ∧ (∀ w ∈ (g t i).2, ¬ bad w) ∧ (f s i).2.countP owed ≤ (g t i).2.countP owed)))
    (is : List ι) {s : σ} {t : τ} (h : R s t) {pend : List ω} (clean : ∀ w ∈ pend, ¬ bad w) (owes : 0 < pend.countP owed)
    {tail : List ω} (none : tail.countP owed = 0) (tail' : List ω) :
    (run f s is).2 ++ tail ≠ pend ++ ((run g t is).2 ++ tail') := by
  induction is generalizing s t pend with
  | nil =>
    intro equal
    have count := congrArg (List.countP owed) equal
    rw [run_nil, List.nil_append, List.countP_append, none] at count
    omega
  | cons i is ih =>
    obtain ⟨short, next⟩ := hstep i s t h
    rw [run_cons, run_cons, List.append_assoc, List.append_assoc]
    cases wrote : (f s i).2 with
    | nil =>
      rw [wrote] at next
      obtain ⟨w, mem, -⟩ | ⟨related, clean', le⟩ := next
      · cases mem
      · have count : 0 < (pend ++ (g t i).2).countP owed := by
          rw [List.countP_append]
          omega
        have later := ih related (fun w mem => (List.mem_append.1 mem).elim (clean w) (clean' w)) count
        rwa [List.append_assoc] at later
    | cons w more =>
      rw [wrote, List.length_cons] at short
      obtain rfl : more = [] := List.eq_nil_of_length_eq_zero (by omega)
      cases pend with
      | nil => cases owes
      | cons v pend =>
        obtain ⟨here, others⟩ := List.forall_mem_cons.1 clean
        rw [List.cons_append, List.cons_append, List.nil_append]
        intro equal
        obtain ⟨rfl, behind⟩ := List.cons.inj equal
        rw [wrote] at next
        obtain ⟨w', mem, wrong⟩ | ⟨related, clean', le⟩ := next
        · rw [List.mem_singleton] at mem
          exact here (mem ▸ wrong)
        · have count : 0 < (pend ++ (g t i).2).countP owed := by
            rw [List.countP_cons] at owes
            rw [List.countP_singleton] at le
            rw [List.countP_append]
            omega
          have later := ih related (fun w mem => (List.mem_append.1 mem).elim (others w) (clean' w)) count
          rw [List.append_assoc] at later
          exact later behind

end SupraHarness.Transducer
