import SupraHarness.Types.Hash

/-!
# Transactions of a component

Write work runs in one transaction: what the work changed is there only when
the commit succeeded, and every error leaves the tables as they were. The
database library can fail when the transaction is opened, at any statement and
at the commit. Constraints fail with the library's own messages.
-/
namespace SupraHarness.Store

open SupraHarness.Types

/-- A failure of the database library, as its message. -/
structure RusqliteError where
  message : String
  deriving DecidableEq, Repr

inductive StoreError where
  | corrupt (turn : TurnId) (stored computed : ContentHash)
  | conflict (turn : TurnId) (stored offered : ContentHash)
  | notFound (turn : TurnId)
  | malformed (detail : String)
  | sqlite (source : RusqliteError)
  deriving DecidableEq, Repr

def StoreError.text : StoreError → String
  | .corrupt turn stored computed =>
    s!"turn {turn.text} does not match the digest recorded when it was evicted (stored {stored.text}, " ++
      s!"read back as {computed.text}); the store is damaged and the turn cannot be recalled"
  | .conflict turn stored offered =>
    s!"turn {turn.text} was already evicted with different content (stored {stored.text}, " ++
      s!"offered {offered.text}); a turn has one body"
  | .notFound turn => s!"turn {turn.text} has not been evicted"
  | .malformed detail => s!"a stored row is malformed: {detail}"
  | .sqlite source => s!"store operation failed: {source.message}"

/-- Which library calls of one transaction fail: its opening, its statements by number, its commit. -/
structure Faults where
  onBegin : Option RusqliteError
  onStatement : Nat → Option RusqliteError
  onCommit : Option RusqliteError

def Faults.none : Faults := ⟨Option.none, fun _ => Option.none, Option.none⟩

/-- A statement runs, or fails with the library's error. -/
def Faults.statement (faults : Faults) (n : Nat) : Except RusqliteError Unit :=
  match faults.onStatement n with
  | some error => .error error
  | Option.none => .ok ()

section

variable {δ ε α : Type}

/-- `Store::with_transaction`: an error rolls back, `Ok` is committed. -/
def withTransaction (faults : Faults) (refuse : RusqliteError → ε) (tables : δ)
    (work : δ → Except ε (δ × α)) : δ × Except ε α :=
  match faults.onBegin with
  | some error => (tables, .error (refuse error))
  | none =>
    match work tables with
    | .error error => (tables, .error error)
    | .ok (changed, outcome) =>
      match faults.onCommit with
      | some error => (tables, .error (refuse error))
      | none => (changed, .ok outcome)

variable {faults : Faults} {refuse : RusqliteError → ε} {tables tables' : δ}
  {work : δ → Except ε (δ × α)}

/-- An error leaves the tables as they were. -/
theorem withTransaction_error {e : ε} (h : withTransaction faults refuse tables work = (tables', .error e)) :
    tables' = tables := by
  unfold withTransaction at h
  cases hbegin : faults.onBegin with
  | some error =>
    rw [hbegin] at h
    exact (Prod.mk.inj h).1.symm
  | none =>
    cases hwork : work tables with
    | error error =>
      rw [hbegin, hwork] at h
      exact (Prod.mk.inj h).1.symm
    | ok done =>
      cases hcommit : faults.onCommit with
      | some error =>
        rw [hbegin, hwork, hcommit] at h
        exact (Prod.mk.inj h).1.symm
      | none =>
        rw [hbegin, hwork, hcommit] at h
        cases h

/-- What was committed is what the work did. -/
theorem withTransaction_ok {a : α} (h : withTransaction faults refuse tables work = (tables', .ok a)) :
    work tables = .ok (tables', a) := by
  unfold withTransaction at h
  cases hbegin : faults.onBegin with
  | some error =>
    rw [hbegin] at h
    cases h
  | none =>
    cases hwork : work tables with
    | error error =>
      rw [hbegin, hwork] at h
      cases h
    | ok done =>
      cases hcommit : faults.onCommit with
      | some error =>
        rw [hbegin, hwork, hcommit] at h
        cases h
      | none =>
        rw [hbegin, hwork, hcommit] at h
        cases h
        rfl

end

theorem bind_eq_ok {ε α β : Type} {x : Except ε α} {f : α → Except ε β} {b : β} :
    (x >>= f) = .ok b ↔ ∃ a, x = .ok a ∧ f a = .ok b := by
  cases x with
  | error e => simp [bind, Except.bind]
  | ok a => simp [bind, Except.bind]

/-- A loop all of whose rounds succeed collects their results. -/
theorem mapM_eq_ok {ε α β : Type} {f : α → Except ε β} {g : α → β} {l : List α}
    (h : ∀ a ∈ l, f a = .ok (g a)) : l.mapM f = .ok (l.map g) := by
  induction l with
  | nil => rfl
  | cons a l ih =>
    rw [List.mapM_cons, h a List.mem_cons_self, ih fun b hb => h b (List.mem_cons_of_mem _ hb)]
    rfl

/-! ## Constraints -/

/-- A `CHECK` constraint. -/
def check (condition : String) (holds : Bool) : Except RusqliteError Unit :=
  if holds then .ok () else .error ⟨s!"CHECK constraint failed: {condition}"⟩

/-- A `PRIMARY KEY` or `UNIQUE` constraint. -/
def unique (columns : String) (fresh : Bool) : Except RusqliteError Unit :=
  if fresh then .ok () else .error ⟨s!"UNIQUE constraint failed: {columns}"⟩

/-- `length(X)` of a text value: the characters before the first NUL. -/
def sqlLength (s : Str) : Nat :=
  (s.text.toList.takeWhile fun c => c ≠ Char.ofNat 0).length

theorem check_eq_ok {condition : String} {holds : Bool} (h : check condition holds = .ok ()) :
    holds = true := by
  unfold check at h
  split at h
  · assumption
  · cases h

theorem unique_eq_ok {columns : String} {fresh : Bool} (h : unique columns fresh = .ok ()) :
    fresh = true := by
  unfold unique at h
  split at h
  · assumption
  · cases h

end SupraHarness.Store
