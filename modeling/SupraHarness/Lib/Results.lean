import Mathlib.Data.List.Basic

/-!
# Results

How a sequence of computations that can fail comes to its result, or to its error; and, where they change a state as
well, what holds of the state in either case.
-/
namespace SupraHarness.Results

variable {ε α β : Type}

theorem bind_eq_ok {x : Except ε α} {f : α → Except ε β} {b : β} :
    (x >>= f) = .ok b ↔ ∃ a, x = .ok a ∧ f a = .ok b := by
  cases x with
  | error e =>
    constructor
    · rintro ⟨⟩
    · rintro ⟨a, h, -⟩
      cases h
  | ok a =>
    constructor
    · intro h
      exact ⟨a, rfl, h⟩
    · rintro ⟨a', h, h'⟩
      cases h
      exact h'

theorem bind_eq_error {x : Except ε α} {f : α → Except ε β} {e : ε} :
    (x >>= f) = .error e ↔ x = .error e ∨ ∃ a, x = .ok a ∧ f a = .error e := by
  cases x with
  | error e' =>
    constructor
    · intro h
      cases h
      exact .inl rfl
    · rintro (h | ⟨a, h, -⟩)
      · cases h
        rfl
      · cases h
  | ok a =>
    constructor
    · intro h
      exact .inr ⟨a, rfl, h⟩
    · rintro (h | ⟨a', h, h'⟩)
      · cases h
      · cases h
        exact h'

theorem mapError_eq_ok {ε' : Type} {f : ε → ε'} {x : Except ε α} {a : α} : x.mapError f = .ok a ↔ x = .ok a := by
  cases x with
  | error e => exact iff_of_false nofun nofun
  | ok _ => rw [Except.mapError, Except.ok.injEq, Except.ok.injEq]

theorem map_eq_ok {f : α → β} {x : Except ε α} {b : β} : x.map f = .ok b ↔ ∃ a, x = .ok a ∧ f a = b := by
  cases x with
  | error e => exact iff_of_false nofun nofun
  | ok a => simp [Except.map]

theorem map_eq_error {f : α → β} {x : Except ε α} {e : ε} : x.map f = .error e ↔ x = .error e := by
  cases x with
  | error e' => rw [Except.map, Except.error.injEq, Except.error.injEq]
  | ok a => exact iff_of_false nofun nofun

/-- A fold that fails fails at one of its elements. -/
theorem foldlM_eq_error {f : β → α → Except ε β} {elements : List α} {b : β} {e : ε}
    (h : elements.foldlM f b = .error e) : ∃ a ∈ elements, ∃ b', f b' a = .error e := by
  induction elements generalizing b with
  | nil => cases h
  | cons first elements ih =>
    rw [List.foldlM_cons] at h
    rcases bind_eq_error.1 h with here | ⟨b', -, later⟩
    · exact ⟨first, List.mem_cons_self, b, here⟩
    · obtain ⟨a, mem, failed⟩ := ih later
      exact ⟨a, List.mem_cons_of_mem _ mem, failed⟩

/-- A fold that comes to a result is followed by one whose steps follow its steps. -/
theorem foldlM_follow {γ : Type} {f : β → α → Except ε β} {g : γ → α → Option γ} (image : β → γ) (Inv : β → Prop)
    {elements : List α} (one : ∀ a ∈ elements, ∀ b b', Inv b → f b a = .ok b' → g (image b) a = some (image b') ∧ Inv b')
    {b b' : β} (start : Inv b) (h : elements.foldlM f b = .ok b') :
    elements.foldlM g (image b) = some (image b') ∧ Inv b' := by
  induction elements generalizing b with
  | nil =>
    cases h
    exact ⟨rfl, start⟩
  | cons first elements ih =>
    rw [List.foldlM_cons] at h
    obtain ⟨next, here, later⟩ := bind_eq_ok.1 h
    obtain ⟨step, inv⟩ := one first List.mem_cons_self b next start here
    rw [List.foldlM_cons, step]
    exact ih (fun a mem => one a (List.mem_cons_of_mem _ mem)) inv later

/-- What every step of a fold keeps holds of its result. -/
theorem foldlM_keeps {f : β → α → Except ε β} (Inv : β → Prop) {elements : List α}
    (one : ∀ a ∈ elements, ∀ b b', Inv b → f b a = .ok b' → Inv b') {b b' : β} (start : Inv b)
    (h : elements.foldlM f b = .ok b') : Inv b' := by
  induction elements generalizing b with
  | nil =>
    cases h
    exact start
  | cons first elements ih =>
    rw [List.foldlM_cons] at h
    obtain ⟨next, here, later⟩ := bind_eq_ok.1 h
    have inv := one first List.mem_cons_self b next start here
    exact ih (fun a mem => one a (List.mem_cons_of_mem _ mem)) inv later

/-- A search whose every test succeeds. -/
theorem findSomeM?_ok {f : α → Except ε (Option β)} {g : α → Option β} {elements : List α}
    (h : ∀ a ∈ elements, f a = .ok (g a)) : elements.findSomeM? f = .ok (elements.findSome? g) := by
  induction elements with
  | nil => rfl
  | cons a elements ih =>
    rw [List.forall_mem_cons] at h
    rw [List.findSomeM?, List.findSome?_cons, h.1]
    cases g a with
    | none => exact ih h.2
    | some b => rfl

/-- Computations that return the same go on to return the same. -/
theorem bind_congr_ok {a b : Except ε α} {f : α → Except ε β}
    (h : ∀ value, a = .ok value ↔ b = .ok value) (value : β) :
    a.bind f = .ok value ↔ b.bind f = .ok value := by
  cases a with
  | ok x => rw [(h x).mp rfl]
  | error e =>
    cases b with
    | ok x => cases (h x).mpr rfl
    | error e' => exact iff_of_false (by rintro ⟨⟩) (by rintro ⟨⟩)

/-! ## Actions -/

section
variable {σ : Type}

/-- From a state with `P`, an action comes to a result and a state with `Q`, or to an error and a state with `E`. -/
def Ensures (P : σ → Prop) (x : ExceptT ε (StateM σ) α) (Q : α → σ → Prop) (E : ε → σ → Prop) : Prop :=
  ∀ s, P s → match (x.run.run s).run with
    | (.ok a, s') => Q a s'
    | (.error e, s') => E e s'

variable {P : σ → Prop} {Q : α → σ → Prop} {E : ε → σ → Prop}

theorem Ensures.pure {a : α} (h : ∀ s, P s → Q a s) : Ensures P (pure a) Q E := h

theorem Ensures.throw {e : ε} (h : ∀ s, P s → E e s) : Ensures P (throw e) Q E := h

theorem Ensures.bind {x : ExceptT ε (StateM σ) α} {f : α → ExceptT ε (StateM σ) β} {R : β → σ → Prop}
    (first : Ensures P x Q E) (later : ∀ a, Ensures (Q a) (f a) R E) : Ensures P (x >>= f) R E := by
  intro s holds
  have here := first s holds
  cases ran : (x.run.run s).run with
  | mk result s' =>
    have whole : ((x >>= f).run.run s).run = (ExceptT.bindCont f result).run s' := by
      change (ExceptT.bindCont f (x.run.run s).run.1).run (x.run.run s).run.2 = _
      rw [ran]
    rw [ran] at here
    rw [whole]
    cases result with
    | ok a => exact later a s' here
    | error e => exact here

/-- An error that is caught is handled in the state it left behind. -/
theorem Ensures.tryCatch {x : ExceptT ε (StateM σ) α} {handle : ε → ExceptT ε (StateM σ) α} {F : ε → σ → Prop}
    (first : Ensures P x Q F) (later : ∀ e, Ensures (F e) (handle e) Q E) : Ensures P (tryCatch x handle) Q E := by
  intro s holds
  have here := first s holds
  cases ran : (x.run.run s).run with
  | mk result s' =>
    rw [ran] at here
    cases result with
    | ok a =>
      have whole : ((MonadExcept.tryCatch x handle).run.run s).run = (.ok a, s') := by
        change ((match (x.run.run s).run.1 with
          | .ok a => Pure.pure (.ok a)
          | .error e => handle e : StateM σ (Except ε α)).run (x.run.run s).run.2).run = _
        rw [ran]
        rfl
      rw [whole]
      exact here
    | error e =>
      have whole : ((MonadExcept.tryCatch x handle).run.run s).run = ((handle e).run.run s').run := by
        change ((match (x.run.run s).run.1 with
          | .ok a => Pure.pure (.ok a)
          | .error e => handle e : StateM σ (Except ε α)).run (x.run.run s).run.2).run = _
        rw [ran]
        rfl
      rw [whole]
      exact later e s' here

theorem Ensures.conseq {x : ExceptT ε (StateM σ) α} {P' : σ → Prop} {Q' : α → σ → Prop} {E' : ε → σ → Prop}
    (h : Ensures P x Q E) (before : ∀ s, P' s → P s) (after : ∀ a s, Q a s → Q' a s) (failed : ∀ e s, E e s → E' e s) :
    Ensures P' x Q' E' := by
  intro s holds
  have here := h s (before s holds)
  cases ran : (x.run.run s).run with
  | mk result s' =>
    rw [ran] at here
    cases result with
    | ok a => exact after a s' here
    | error e => exact failed e s' here

theorem Ensures.look {f : σ → ExceptT ε (StateM σ) α} {s₀ : σ} (h : Ensures (· = s₀) (f s₀) Q E) :
    Ensures (· = s₀) (get >>= f) Q E := by
  intro s same
  subst same
  exact h s rfl

theorem Ensures.update {f : σ → σ} {s₀ : σ} {Q : PUnit → σ → Prop} (h : Q ⟨⟩ (f s₀)) :
    Ensures (· = s₀) (modify f : ExceptT ε (StateM σ) PUnit) Q E := by
  intro s same
  subst same
  exact h

theorem Ensures.update_bind {f : σ → σ} {k : PUnit → ExceptT ε (StateM σ) α} {s₀ : σ}
    (h : Ensures (· = f s₀) (k ⟨⟩) Q E) : Ensures (· = s₀) (modify f >>= k) Q E := by
  intro s same
  subst same
  exact h (f s) rfl

theorem Ensures.each {x : ExceptT ε (StateM σ) α} (h : ∀ s, P s → Ensures (· = s) x Q E) : Ensures P x Q E :=
  fun s holds => h s holds s rfl

/-- An action that leaves the state as it is is followed by what its result tells. -/
theorem Ensures.check {x : ExceptT ε (StateM σ) α} {f : α → ExceptT ε (StateM σ) β} {R : β → σ → Prop} {s₀ : σ}
    {φ : α → Prop} (first : Ensures (· = s₀) x (fun a s => s = s₀ ∧ φ a) (fun _ s => s = s₀)) (failed : ∀ e, E e s₀)
    (later : ∀ a, φ a → Ensures (· = s₀) (f a) R E) : Ensures (· = s₀) (x >>= f) R E :=
  .bind (first.conseq (fun _ same => same) (fun _ _ both => both) fun e _ same => same ▸ failed e)
    fun a s both => later a both.2 s both.1

/-- A condition that is looked at splits an action. -/
theorem Ensures.ite {c : Prop} [Decidable c] {x y : ExceptT ε (StateM σ) α} (yes : c → Ensures P x Q E)
    (no : ¬ c → Ensures P y Q E) : Ensures P (if c then x else y) Q E := by
  by_cases holds : c
  · rw [if_pos holds]
    exact yes holds
  · rw [if_neg holds]
    exact no holds

end

end SupraHarness.Results
