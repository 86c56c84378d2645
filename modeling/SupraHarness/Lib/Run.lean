import Mathlib.Data.List.Basic

/-!
# Runs of labelled steps

A system takes one action at a time; an action that is not enabled has no successor. `run` is the
state after a list of actions, and `trace` the steps on the way, each as the state before it, the
action and the state after it. An invariant holds in every reachable state, so that every step of
a run starts in a state that has it.
-/
namespace SupraHarness.Run

variable {σ α : Type*}

def run (step : σ → α → Option σ) : σ → List α → Option σ
  | s, [] => some s
  | s, a :: as => (step s a).bind fun s => run step s as

@[simp] theorem run_nil (step : σ → α → Option σ) (s : σ) : run step s [] = some s := rfl

@[simp] theorem run_cons (step : σ → α → Option σ) (s : σ) (a : α) (as : List α) :
    run step s (a :: as) = (step s a).bind fun s => run step s as := rfl

theorem run_cons_eq_some {step : σ → α → Option σ} {s t : σ} {a : α} {as : List α} :
    run step s (a :: as) = some t ↔ ∃ s', step s a = some s' ∧ run step s' as = some t := by
  rw [run_cons, Option.bind_eq_some_iff]

theorem run_append (step : σ → α → Option σ) (s : σ) (as bs : List α) :
    run step s (as ++ bs) = (run step s as).bind fun s => run step s bs := by
  induction as generalizing s with
  | nil => rfl
  | cons a as ih =>
    rw [List.cons_append, run_cons, run_cons, Option.bind_assoc]
    exact congrArg ((step s a).bind ·) (funext ih)

/-- What every step preserves holds after every run. -/
theorem run_invariant {step : σ → α → Option σ} {Inv : σ → Prop}
    (hstep : ∀ s a s', Inv s → step s a = some s' → Inv s') (as : List α) {s t : σ}
    (hs : Inv s) (h : run step s as = some t) : Inv t := by
  induction as generalizing s with
  | nil => exact Option.some.inj h ▸ hs
  | cons a as ih =>
    obtain ⟨s', ha, hr⟩ := run_cons_eq_some.1 h
    exact ih (hstep s a s' hs ha) hr

/-- The steps of a run. -/
def trace (step : σ → α → Option σ) : σ → List α → List (σ × α × σ)
  | _, [] => []
  | s, a :: as =>
    match step s a with
    | none => []
    | some s' => (s, a, s') :: trace step s' as

theorem trace_cons {step : σ → α → Option σ} {s s' : σ} {a : α} (h : step s a = some s') (as : List α) :
    trace step s (a :: as) = (s, a, s') :: trace step s' as := by
  rw [trace, h]

theorem trace_append {step : σ → α → Option σ} {s t : σ} {as : List α} (h : run step s as = some t)
    (bs : List α) : trace step s (as ++ bs) = trace step s as ++ trace step t bs := by
  induction as generalizing s with
  | nil =>
    obtain rfl := Option.some.inj h
    rfl
  | cons a as ih =>
    obtain ⟨s', ha, hr⟩ := run_cons_eq_some.1 h
    rw [List.cons_append, trace_cons ha, trace_cons ha, ih hr, List.cons_append]

/-- What holds of the steps of a run holds of the steps of its two parts. -/
theorem forall_trace_append {step : σ → α → Option σ} {s t : σ} {as bs : List α} (h : run step s as = some t)
    {p : σ × α × σ → Prop} (hp : ∀ u ∈ trace step s (as ++ bs), p u) :
    (∀ u ∈ trace step s as, p u) ∧ ∀ u ∈ trace step t bs, p u := by
  rw [trace_append h] at hp
  exact List.forall_mem_append.mp hp

theorem act_mem_of_mem_trace {step : σ → α → Option σ} {as : List α} {s : σ} {t : σ × α × σ}
    (ht : t ∈ trace step s as) : t.2.1 ∈ as := by
  induction as generalizing s with
  | nil => cases ht
  | cons a as ih =>
    cases ha : step s a with
    | none => simp [trace, ha] at ht
    | some s' =>
      rw [trace_cons ha] at ht
      rcases List.mem_cons.1 ht with rfl | ht
      · exact List.mem_cons_self
      · exact List.mem_cons_of_mem _ (ih ht)

/-- An invariant that the steps of a run keep holds before and after each of them. -/
theorem trace_invariant_of (Keeps : σ → α → Prop) {step : σ → α → Option σ} {Inv : σ → Prop}
    (hstep : ∀ s a s', Inv s → Keeps s a → step s a = some s' → Inv s') (as : List α) {s : σ} (hs : Inv s)
    (hkeeps : ∀ t ∈ trace step s as, Keeps t.1 t.2.1) {t : σ × α × σ} (ht : t ∈ trace step s as) :
    Inv t.1 ∧ step t.1 t.2.1 = some t.2.2 := by
  induction as generalizing s with
  | nil => cases ht
  | cons a as ih =>
    cases ha : step s a with
    | none => simp [trace, ha] at ht
    | some s' =>
      rw [trace_cons ha] at ht hkeeps
      have hkeep : Keeps s a := hkeeps (s, a, s') List.mem_cons_self
      rcases List.mem_cons.1 ht with rfl | ht
      · exact ⟨hs, ha⟩
      · exact ih (hstep s a s' hs hkeep ha) (fun t ht => hkeeps t (List.mem_cons_of_mem _ ht)) ht

/-- An invariant that the steps of a run keep holds at its end. -/
theorem run_invariant_of (Keeps : σ → α → Prop) {step : σ → α → Option σ} {Inv : σ → Prop}
    (hstep : ∀ s a s', Inv s → Keeps s a → step s a = some s' → Inv s') (as : List α) {s t : σ} (hs : Inv s)
    (hkeeps : ∀ u ∈ trace step s as, Keeps u.1 u.2.1) (h : run step s as = some t) : Inv t := by
  induction as generalizing s with
  | nil => exact Option.some.inj h ▸ hs
  | cons a as ih =>
    obtain ⟨s', ha, hr⟩ := run_cons_eq_some.1 h
    rw [trace_cons ha] at hkeeps
    have hkeep : Keeps s a := hkeeps (s, a, s') List.mem_cons_self
    exact ih (hstep s a s' hs hkeep ha) (fun u hu => hkeeps u (List.mem_cons_of_mem _ hu)) hr

/-- A step of a run leads from a state that has every invariant to its successor. -/
theorem trace_invariant {step : σ → α → Option σ} {Inv : σ → Prop}
    (hstep : ∀ s a s', Inv s → step s a = some s' → Inv s') (as : List α) {s : σ} (hs : Inv s)
    {t : σ × α × σ} (ht : t ∈ trace step s as) : Inv t.1 ∧ step t.1 t.2.1 = some t.2.2 :=
  trace_invariant_of (fun _ _ => True) (fun s a s' hs _ h => hstep s a s' hs h) as hs (fun _ _ => trivial) ht

/-- Where a step leaves the invariant exactly if it is of a kind, a run has it throughout exactly if all its
steps are of that kind. -/
theorem trace_iff {step : σ → α → Option σ} {Inv : σ → Prop} {Keeps : σ → α → Prop}
    (hstep : ∀ s a s', Inv s → step s a = some s' → (Inv s' ↔ Keeps s a)) (as : List α) {s : σ} (hs : Inv s) :
    (∀ t ∈ trace step s as, Inv t.2.2) ↔ ∀ t ∈ trace step s as, Keeps t.1 t.2.1 := by
  induction as generalizing s with
  | nil => exact iff_of_true nofun nofun
  | cons a as ih =>
    cases ha : step s a with
    | none => simp [trace, ha]
    | some s' =>
      rw [trace_cons ha, List.forall_mem_cons, List.forall_mem_cons, hstep s a s' hs ha]
      refine and_congr_right fun hkeep => ih ?_
      exact (hstep s a s' hs ha).2 hkeep

/-- What every step keeps of a state and the steps that led to it holds at the end of every run. -/
theorem run_history {step : σ → α → Option σ} {Inv : σ → List (σ × α × σ) → Prop}
    (hstep : ∀ s taken a s', Inv s taken → step s a = some s' → Inv s' (taken ++ [(s, a, s')]))
    (as : List α) {s : σ} {taken : List (σ × α × σ)} (hs : Inv s taken) :
    ∃ t, Inv t (taken ++ trace step s as) ∧ ∀ u, run step s as = some u → u = t := by
  induction as generalizing s taken with
  | nil =>
    refine ⟨s, by simpa [trace] using hs, ?_⟩
    intro u hu
    exact (Option.some.inj hu).symm
  | cons a as ih =>
    cases ha : step s a with
    | none =>
      refine ⟨s, by simpa [trace, ha] using hs, ?_⟩
      intro u hu
      simp [ha] at hu
    | some s' =>
      obtain ⟨t, ht, hrun⟩ := ih (hstep s taken a s' hs ha)
      refine ⟨t, ?_, ?_⟩
      · rw [trace_cons ha]
        simpa using ht
      · intro u hu
        rw [run_cons, ha] at hu
        exact hrun u hu

/-- What the steps of a run keep of a state and the steps that led to it holds before each of them. -/
theorem trace_history (Keeps : σ → α → Prop) {step : σ → α → Option σ} {Inv : σ → List (σ × α × σ) → Prop}
    (hstep : ∀ s taken a s', Inv s taken → Keeps s a → step s a = some s' → Inv s' (taken ++ [(s, a, s')]))
    (as : List α) {s : σ} {taken : List (σ × α × σ)} (hs : Inv s taken)
    (hkeeps : ∀ t ∈ trace step s as, Keeps t.1 t.2.1) {before after : List (σ × α × σ)} {t : σ × α × σ}
    (ht : trace step s as = before ++ t :: after) : Inv t.1 (taken ++ before) ∧ step t.1 t.2.1 = some t.2.2 := by
  induction as generalizing s taken before with
  | nil =>
    rw [trace] at ht
    exact absurd ht (by simp)
  | cons a as ih =>
    cases ha : step s a with
    | none =>
      rw [trace, ha] at ht
      exact absurd ht (by simp)
    | some s' =>
      rw [trace_cons ha] at ht hkeeps
      cases before with
      | nil =>
        cases ht
        rw [List.append_nil]
        exact ⟨hs, ha⟩
      | cons first before =>
        obtain ⟨rfl, hrest⟩ := List.cons.inj ht
        have hkeep : Keeps s a := hkeeps (s, a, s') List.mem_cons_self
        have h := ih (hstep s taken a s' hs hkeep ha) (fun t ht => hkeeps t (List.mem_cons_of_mem _ ht)) hrest
        rwa [List.append_assoc] at h

end SupraHarness.Run
