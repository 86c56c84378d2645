import Mathlib.Algebra.Group.Int.Defs
import Mathlib.Algebra.Group.Nat.Defs
import Mathlib.Logic.Function.Basic
import SupraHarness.Lib.Run

/-!
# Schema migrations

A store file has several schema ledgers: `user_version` for the core tables, and one row of
`schema_component` for every other owner of tables. All of them are migrated in the same way,
forward only: the opener reads the recorded version, refuses a newer file, and applies the steps
of its own list one by one, each in an IMMEDIATE transaction that reads the version again.

Any number of openers work on one file, and their database calls interleave. A build knows a
prefix of the steps its owner will ever have. What runs inside a batch is left to a parameter.
-/
namespace SupraHarness.Store.Schema

variable {β : Type}

/-- Whose tables: the store's own, or those of a component. -/
inductive Owner where
  | core
  | component (name : String)
  deriving DecidableEq, Repr

/-- One schema step: the version it produces, and the batch it runs. -/
structure Migration (β : Type) where
  version : Nat
  sql : β
  deriving DecidableEq, Repr

/-- What `assert_dense` checks: versions count up from 1. -/
def AssertDense (migrations : List (Migration β)) : Prop :=
  ∀ i (h : i < migrations.length), migrations[i].version = i + 1

/-- Every step an owner will ever have, in order. -/
structure Plan (β : Type) where
  steps : List (Migration β)
  dense : AssertDense steps

/-- Why a statement fails. -/
inductive SqlError where
  | failed
  | conversion (detail : String)
  deriving DecidableEq, Repr

inductive StoreError where
  | schemaTooNew (path : String) (found supported : Nat)
  | componentSchemaTooNew (path component : String) (found supported : Nat)
  | migrate (origin target : Nat) (source : SqlError)
  | componentMigrate (component : String) (origin target : Nat) (source : SqlError)
  | malformed (detail : String)
  | database (source : SqlError)
  deriving DecidableEq, Repr

/-- The file: what every ledger records (0 where it records nothing), and the batches that were
committed, with their owners. -/
structure File (β : Type) where
  recorded : Owner → Int
  applied : List (Owner × Migration β)

def File.new : File β := ⟨fun _ => 0, []⟩

/-- `u32::try_from` of a recorded integer. -/
def tryFromI64 (found : Int) : Option Nat :=
  if 0 ≤ found ∧ found < 2 ^ 32 then some found.toNat else none

def versionDetail : Owner → Int → String
  | .core, found => "user_version is " ++ toString found ++ ", which is not a schema version"
  | .component name, found =>
    "component \"" ++ name ++ "\" records version " ++ toString found ++ ", which is not a version"

/-- `current_version`, and `component_version` for a component. -/
def currentVersion (file : File β) (owner : Owner) : Except StoreError Nat :=
  match tryFromI64 (file.recorded owner) with
  | some version => .ok version
  | none => .error (.malformed (versionDetail owner (file.recorded owner)))

def latestVersion (migrations : List (Migration β)) : Nat :=
  (migrations.getLast?.map Migration.version).getD 0

def tooNew (path : String) (found supported : Nat) : Owner → StoreError
  | .core => .schemaTooNew path found supported
  | .component name => .componentSchemaTooNew path name found supported

/-- A transaction that does not begin, or a failed batch or commit. The core ledger reports the
version read inside the transaction where there is one, a component the one of its loop. -/
def stepFailed (version recorded : Nat) (m : Migration β) (source : SqlError) : Owner → StoreError
  | .core => .migrate recorded m.version source
  | .component name => .componentMigrate name version m.version source

/-- A version that cannot be read inside the transaction. -/
def rereadFailed (file : File β) (version : Nat) (m : Migration β) : Owner → StoreError
  | .core => .malformed (versionDetail .core (file.recorded .core))
  | .component name => .componentMigrate name version m.version
      (.conversion (versionDetail (.component name) (file.recorded (.component name))))

/-- The same statement failing outright. -/
def rereadFault (version : Nat) (m : Migration β) : Owner → StoreError
  | .core => .database .failed
  | .component name => .componentMigrate name version m.version .failed

/-- Where an opener is: before its first read; between two transactions; inside one, before and
after the version is read again and after the batch; and at its end. `version` is the variable of
the loop over the list. -/
inductive Phase (β : Type) where
  | start
  | between (version : Nat) (rest : List (Migration β))
  | began (version : Nat) (m : Migration β) (rest : List (Migration β))
  | outdated (version recorded : Nat) (m : Migration β) (rest : List (Migration β))
  | executed (version recorded : Nat) (m : Migration β) (rest : List (Migration β))
  | returned (result : Except StoreError Nat)
  | crashed

/-- A process that opens the file; `since` is how many batches had been committed when it first
read the version. -/
structure Opener (β : Type) where
  owner : Owner
  path : String
  known : List (Migration β)
  phase : Phase β
  since : Nat

structure System (β : Type) where
  file : File β
  writer : Option Nat
  openers : List (Opener β)

def System.new : System β := ⟨File.new, none, []⟩

inductive Action where
  | arrive (owner : Owner) (path : String) (known : Nat)
  | advance (i : Nat) (fault : Bool)
  | crash (i : Nat)
  deriving DecidableEq, Repr

def System.setPhase (s : System β) (i : Nat) (phase : Phase β) : System β :=
  { s with openers := s.openers.modify i fun o => { o with phase := phase } }

/-- The end of a transaction, with or without a commit. -/
def System.release (s : System β) (i : Nat) (phase : Phase β) : System β :=
  { s.setPhase i phase with writer := none }

/-- The next database call of opener `i`, failing if `fault`. A transaction that cannot begin while
another process writes waits, or fails. -/
def System.advance (s : System β) (i : Nat) (o : Opener β) (fault : Bool) : Option (System β) :=
  match o.phase with
  | .start =>
    if fault then some (s.setPhase i (.returned (.error (.database .failed))))
    else match currentVersion s.file o.owner with
      | .error e => some (s.setPhase i (.returned (.error e)))
      | .ok version =>
        let latest := latestVersion o.known
        if latest < version then
          some (s.setPhase i (.returned (.error (tooNew o.path version latest o.owner))))
        else
          some { s with openers := s.openers.modify i fun o =>
            { o with phase := .between version o.known, since := s.file.applied.length } }
  | .between version [] => some (s.setPhase i (.returned (.ok version)))
  | .between version (m :: rest) =>
    if fault then
      some (s.setPhase i (.returned (.error (stepFailed version version m .failed o.owner))))
    else if s.writer = none then some { s.setPhase i (.began version m rest) with writer := some i }
    else none
  | .began version m rest =>
    if fault then some (s.release i (.returned (.error (rereadFault version m o.owner))))
    else match currentVersion s.file o.owner with
      | .error _ => some (s.release i (.returned (.error (rereadFailed s.file version m o.owner))))
      | .ok recorded =>
        if m.version ≤ recorded then some (s.release i (.between recorded rest))
        else some (s.setPhase i (.outdated version recorded m rest))
  | .outdated version recorded m rest =>
    if fault then
      some (s.release i (.returned (.error (stepFailed version recorded m .failed o.owner))))
    else some (s.setPhase i (.executed version recorded m rest))
  | .executed version recorded m rest =>
    if fault then
      some (s.release i (.returned (.error (stepFailed version recorded m .failed o.owner))))
    else
      some { s.release i (.between m.version rest) with
        file := ⟨Function.update s.file.recorded o.owner m.version, s.file.applied ++ [(o.owner, m)]⟩ }
  | .returned _ => none
  | .crashed => none

/-- One step of one process. A process that dies in a transaction leaves nothing behind. -/
def step (plan : Owner → Plan β) (s : System β) : Action → Option (System β)
  | .arrive owner path known =>
    some { s with openers := s.openers ++ [⟨owner, path, (plan owner).steps.take known, .start, 0⟩] }
  | .advance i fault => (s.openers[i]?).bind fun o => s.advance i o fault
  | .crash i => (s.openers[i]?).bind fun o =>
    match o.phase with
    | .returned _ => none
    | .crashed => none
    | _ => some (if s.writer = some i then s.release i .crashed else s.setPhase i .crashed)

/-! ## What the property says of one step -/

/-- The batches of one owner among those committed. -/
def ownSteps (applied : List (Owner × Migration β)) (owner : Owner) : List (Migration β) :=
  (applied.filter fun p => p.1 = owner).map Prod.snd

/-- A step beyond the opener's list was committed since it first read the version. -/
def Opener.Overtaken (o : Opener β) (file : File β) : Prop :=
  ∃ p ∈ file.applied.drop o.since, p.1 = o.owner ∧ latestVersion o.known < p.2.version

/-- The last step of a loop is not taken by an opener that was overtaken. -/
def NotOvertaken (s : System β) (a : Action) : Prop :=
  ∀ i fault o version, a = .advance i fault → s.openers[i]? = some o →
    o.phase = .between version [] → ¬ o.Overtaken s.file

/-- Every recorded version says which steps were applied, each once and in order; no recorded
version decreases; and an opener that returns `Ok` has all its steps applied, and none above the
last it knows. -/
structure Sound (plan : Owner → Plan β) (s s' : System β) : Prop where
  once : ∀ owner, ∃ n : Nat, s'.file.recorded owner = n ∧
    ownSteps s'.file.applied owner = (plan owner).steps.take n ∧ n ≤ (plan owner).steps.length
  monotone : ∀ owner, s.file.recorded owner ≤ s'.file.recorded owner
  accepts : ∀ (i : Nat) (o o' : Opener β) version, s.openers[i]? = some o → s'.openers[i]? = some o' →
    (∀ result, o.phase ≠ .returned result) → o'.phase = .returned (.ok version) →
    s'.file.recorded o.owner = latestVersion o.known

/-! ## Lists of steps -/

theorem ownSteps_append (as bs : List (Owner × Migration β)) (owner : Owner) :
    ownSteps (as ++ bs) owner = ownSteps as owner ++ ownSteps bs owner := by
  simp [ownSteps]

theorem ownSteps_single (owner owner' : Owner) (m : Migration β) :
    ownSteps [(owner, m)] owner' = if owner = owner' then [m] else [] := by
  by_cases h : owner = owner' <;> simp [ownSteps, h]

theorem Plan.version_of_mem_take (plan : Plan β) {n : Nat} {m : Migration β}
    (h : m ∈ plan.steps.take n) : m.version ≤ n := by
  obtain ⟨i, hi, rfl⟩ := List.getElem_of_mem h
  rw [List.getElem_take, plan.dense]
  simp only [List.length_take] at hi
  omega

theorem latestVersion_take (plan : Plan β) (k : Nat) :
    latestVersion (plan.steps.take k) = (plan.steps.take k).length := by
  unfold latestVersion
  rw [List.getLast?_eq_getElem?]
  by_cases hz : (plan.steps.take k).length = 0
  · rw [List.eq_nil_of_length_eq_zero hz]
    rfl
  · have hlt : (plan.steps.take k).length - 1 < (plan.steps.take k).length := by omega
    rw [List.getElem?_eq_getElem hlt, Option.map_some, Option.getD_some, List.getElem_take, plan.dense]
    omega

/-- The step after the first `n` has version `n + 1`. -/
theorem Plan.next_of_take (plan : Plan β) {k : Nat} {done rest : List (Migration β)} {m : Migration β}
    (h : plan.steps.take k = done ++ m :: rest) :
    m.version = done.length + 1 ∧ plan.steps.take (done.length + 1) = plan.steps.take done.length ++ [m] := by
  have hlt : done.length < (plan.steps.take k).length := by
    rw [h, List.length_append, List.length_cons]
    omega
  have hm : (plan.steps.take k)[done.length] = m := by
    simp [h]
  have hlen : done.length < plan.steps.length := by
    rw [List.length_take] at hlt
    omega
  rw [List.getElem_take] at hm
  refine ⟨hm ▸ plan.dense done.length hlen, ?_⟩
  rw [List.take_succ_eq_append_getElem hlen, hm]

/-! ## The invariant -/

/-- In the loop over the list `known`: the steps before `rest` are recorded, up to `version` at
least, and at the first read nothing beyond the list was. -/
structure InLoop (owner : Owner) (known : List (Migration β)) (since : Nat) (file : File β)
    (version : Nat) (rest : List (Migration β)) : Prop where
  since_le : since ≤ file.applied.length
  seen : (ownSteps (file.applied.take since) owner).length ≤ known.length
  done : ∃ done, known = done ++ rest ∧ done.length ≤ version
  recorded : version ≤ file.recorded owner

abbrev Opener.Loop (o : Opener β) : File β → Nat → List (Migration β) → Prop :=
  InLoop o.owner o.known o.since

def Opener.Fits (o : Opener β) (file : File β) : Prop :=
  match o.phase with
  | .start => True
  | .between version rest => o.Loop file version rest
  | .began version m rest => o.Loop file version (m :: rest)
  | .outdated version recorded m rest =>
    o.Loop file version (m :: rest) ∧ file.recorded o.owner = recorded ∧ recorded < m.version
  | .executed version recorded m rest =>
    o.Loop file version (m :: rest) ∧ file.recorded o.owner = recorded ∧ recorded < m.version
  | .returned _ => True
  | .crashed => True

/-- Whether a phase is inside a transaction. -/
def Phase.writes : Phase β → Bool
  | .began _ _ _ => true
  | .outdated _ _ _ _ => true
  | .executed _ _ _ _ => true
  | _ => false

structure Inv (plan : Owner → Plan β) (s : System β) : Prop where
  once : ∀ owner, ∃ n : Nat, s.file.recorded owner = n ∧
    ownSteps s.file.applied owner = (plan owner).steps.take n ∧ n ≤ (plan owner).steps.length
  writer : ∀ (i : Nat) (o : Opener β), s.openers[i]? = some o → (o.phase.writes = true ↔ s.writer = some i)
  known : ∀ (i : Nat) (o : Opener β), s.openers[i]? = some o → ∃ k, o.known = (plan o.owner).steps.take k
  fits : ∀ (i : Nat) (o : Opener β), s.openers[i]? = some o → o.Fits s.file
  bound : ∀ i, s.writer = some i → i < s.openers.length

section Plan

variable {plan : Owner → Plan β}

theorem inv_new : Inv plan (System.new : System β) := by
  refine ⟨fun owner => ⟨0, rfl, by simp [System.new, File.new, ownSteps], Nat.zero_le _⟩, ?_, ?_, ?_, ?_⟩ <;>
    simp [System.new]

theorem openers_modify {s : System β} {i j : Nat} {f : Opener β → Opener β} {o : Opener β} :
    (s.openers.modify i f)[j]? = some o ↔
      ∃ old, s.openers[j]? = some old ∧ o = if i = j then f old else old := by
  simp only [List.getElem?_modify, Option.map_eq_map, Option.map_eq_some_iff]
  exact ⟨fun ⟨old, h, he⟩ => ⟨old, h, he.symm⟩, fun ⟨old, h, he⟩ => ⟨old, h, he.symm⟩⟩

/-- The recorded version of the opener's ledger has passed its list exactly when it was overtaken. -/
theorem overtaken_iff {s : System β} (hs : Inv plan s) {i : Nat} {o : Opener β}
    (hi : s.openers[i]? = some o) {version : Nat} {rest : List (Migration β)}
    (hl : o.Loop s.file version rest) :
    o.Overtaken s.file ↔ (latestVersion o.known : Int) < s.file.recorded o.owner := by
  obtain ⟨n, hn, hown, hle⟩ := hs.once o.owner
  obtain ⟨k, hk⟩ := hs.known i o hi
  have hlatest : latestVersion o.known = o.known.length := by rw [hk, latestVersion_take]
  have hsplit : ownSteps (s.file.applied.take o.since) o.owner ++
      ownSteps (s.file.applied.drop o.since) o.owner = (plan o.owner).steps.take n := by
    rw [← ownSteps_append, List.take_append_drop, hown]
  have hseen := hl.seen
  rw [hn, hlatest]
  constructor
  · rintro ⟨p, hp, howner, hlt⟩
    have hmem : p.2 ∈ (plan o.owner).steps.take n := by
      rw [← hsplit]
      refine List.mem_append_right _ (List.mem_map.2 ⟨p, List.mem_filter.2 ⟨hp, ?_⟩, rfl⟩)
      simpa using howner
    have := (plan o.owner).version_of_mem_take hmem
    rw [hlatest] at hlt
    omega
  · intro hlt
    have hpos : n - 1 < (plan o.owner).steps.length := by omega
    have hlen := congrArg List.length hsplit
    simp only [List.length_append, List.length_take] at hlen
    have hlast : (plan o.owner).steps[n - 1] ∈ ownSteps (s.file.applied.drop o.since) o.owner := by
      have hget : (ownSteps (s.file.applied.take o.since) o.owner ++
          ownSteps (s.file.applied.drop o.since) o.owner)[n - 1]? =
          ((plan o.owner).steps.take n)[n - 1]? := by
        rw [hsplit]
      rw [List.getElem?_append_right (by omega), List.getElem?_take_of_lt (by omega),
        List.getElem?_eq_getElem hpos] at hget
      exact List.mem_of_getElem? hget
    obtain ⟨p, hp, hm⟩ := List.mem_map.1 hlast
    obtain ⟨hdrop, howner⟩ := List.mem_filter.1 hp
    refine ⟨p, hdrop, by simpa using howner, ?_⟩
    rw [hm, (plan o.owner).dense, hlatest]
    omega

/-! ## Steps keep it -/

/-- One opener moves, and the file stays as it is. -/
theorem inv_move {s : System β} (hs : Inv plan s) {i : Nat} {o : Opener β}
    (hi : s.openers[i]? = some o) (f : Opener β → Opener β) (w : Option Nat)
    (howner : (f o).owner = o.owner) (hknown : (f o).known = o.known) (hfits : (f o).Fits s.file)
    (hw : (f o).phase.writes = true ↔ w = some i) (hother : ∀ j, j ≠ i → (s.writer = some j ↔ w = some j)) :
    Inv plan ⟨s.file, w, s.openers.modify i f⟩ := by
  have hlt : i < s.openers.length := (List.getElem?_eq_some_iff.1 hi).1
  have hcase {j : Nat} {o' : Opener β} (hj : (s.openers.modify i f)[j]? = some o') :
      j = i ∧ o' = f o ∨ j ≠ i ∧ s.openers[j]? = some o' := by
    obtain ⟨old, hold, rfl⟩ := openers_modify.1 hj
    by_cases hij : i = j
    · subst hij
      rw [hi] at hold
      cases hold
      exact .inl ⟨rfl, if_pos rfl⟩
    · exact .inr ⟨Ne.symm hij, by rw [if_neg hij, hold]⟩
  refine ⟨hs.once, ?_, ?_, ?_, ?_⟩
  · intro j o' hj
    rcases hcase hj with ⟨rfl, rfl⟩ | ⟨hne, hj⟩
    · exact hw
    · exact (hs.writer j o' hj).trans (hother j hne)
  · intro j o' hj
    rcases hcase hj with ⟨rfl, rfl⟩ | ⟨-, hj⟩
    · rw [howner, hknown]
      exact hs.known j o hi
    · exact hs.known j o' hj
  · intro j o' hj
    rcases hcase hj with ⟨rfl, rfl⟩ | ⟨-, hj⟩
    · exact hfits
    · exact hs.fits j o' hj
  · intro j hj
    rw [List.length_modify]
    by_cases hji : j = i
    · exact hji ▸ hlt
    · exact hs.bound j ((hother j hji).2 hj)

/-- A step outside every transaction. -/
theorem inv_setPhase {s : System β} (hs : Inv plan s) {i : Nat} {o : Opener β}
    (hi : s.openers[i]? = some o) {phase : Phase β} (hp : phase.writes = o.phase.writes)
    (hfits : Opener.Fits { o with phase := phase } s.file) : Inv plan (s.setPhase i phase) :=
  inv_move hs hi (fun o => { o with phase := phase }) s.writer rfl rfl hfits
    (by rw [hp]; exact hs.writer i o hi) fun _ _ => Iff.rfl

/-- The end of a transaction that changed nothing. -/
theorem inv_release {s : System β} (hs : Inv plan s) {i : Nat} {o : Opener β}
    (hi : s.openers[i]? = some o) (ho : o.phase.writes = true) {phase : Phase β}
    (hp : phase.writes = false) (hfits : Opener.Fits { o with phase := phase } s.file) :
    Inv plan (s.release i phase) := by
  have hw := (hs.writer i o hi).1 ho
  refine inv_move hs hi (fun o => { o with phase := phase }) none rfl rfl hfits (by simp [hp]) ?_
  intro j hj
  simp [hw, Ne.symm hj]

/-- A loop goes on over a file that has grown. -/
theorem loop_grow {o : Opener β} {file file' : File β} {version : Nat} {rest : List (Migration β)}
    (h : o.Loop file version rest) {more : List (Owner × Migration β)}
    (happlied : file'.applied = file.applied ++ more)
    (hrecorded : file.recorded o.owner ≤ file'.recorded o.owner) : o.Loop file' version rest := by
  obtain ⟨hsince, hseen, hdone, hversion⟩ := h
  refine ⟨?_, ?_, hdone, Int.le_trans hversion hrecorded⟩
  · rw [happlied, List.length_append]
    omega
  · rwa [happlied, List.take_append_of_le_length hsince]

/-- An opener outside every transaction does not mind a commit. -/
theorem fits_grow {o : Opener β} {file file' : File β} (h : o.Fits file) (hp : o.phase.writes = false)
    {more : List (Owner × Migration β)} (happlied : file'.applied = file.applied ++ more)
    (hrecorded : file.recorded o.owner ≤ file'.recorded o.owner) : o.Fits file' := by
  unfold Opener.Fits at h ⊢
  cases hph : o.phase with
  | start => trivial
  | between version rest =>
    rw [hph] at h
    exact loop_grow h happlied hrecorded
  | began version m rest => simp [hph, Phase.writes] at hp
  | outdated version recorded m rest => simp [hph, Phase.writes] at hp
  | executed version recorded m rest => simp [hph, Phase.writes] at hp
  | returned result => trivial
  | crashed => trivial

/-- What is known when a batch is committed: it is the next one of its owner. -/
theorem commit_next {s : System β} (hs : Inv plan s) {i : Nat} {o : Opener β}
    (hi : s.openers[i]? = some o) {version recorded : Nat} {m : Migration β} {rest : List (Migration β)}
    (hp : o.phase = .executed version recorded m rest) :
    s.file.recorded o.owner = recorded ∧ m.version = recorded + 1 ∧
      ownSteps s.file.applied o.owner ++ [m] = (plan o.owner).steps.take m.version ∧
      m.version ≤ (plan o.owner).steps.length := by
  have hfits := hs.fits i o hi
  rw [Opener.Fits, hp] at hfits
  obtain ⟨⟨-, -, ⟨done, hknown, hdone⟩, hversion⟩, hrec, hlt⟩ := hfits
  obtain ⟨k, hk⟩ := hs.known i o hi
  have hsteps := hk.symm.trans hknown
  obtain ⟨hm, htake⟩ := (plan o.owner).next_of_take hsteps
  obtain ⟨n, hn, hown, -⟩ := hs.once o.owner
  have hnd : n = done.length := by omega
  have hlen := congrArg List.length hsteps
  simp only [List.length_take, List.length_append, List.length_cons] at hlen
  refine ⟨hrec, by omega, ?_, by omega⟩
  rw [hown, hnd, hm, htake]

theorem inv_commit {s : System β} (hs : Inv plan s) {i : Nat} {o : Opener β}
    (hi : s.openers[i]? = some o) {version recorded : Nat} {m : Migration β} {rest : List (Migration β)}
    (hp : o.phase = .executed version recorded m rest) :
    Inv plan { s.release i (.between m.version rest) with
      file := ⟨Function.update s.file.recorded o.owner m.version,
        s.file.applied ++ [(o.owner, m)]⟩ } := by
  obtain ⟨hrec, hm, hown, hle⟩ := commit_next hs hi hp
  have hgrow (owner : Owner) :
      s.file.recorded owner ≤ Function.update s.file.recorded o.owner (m.version : Int) owner := by
    by_cases h : owner = o.owner
    · rw [h, Function.update_self]
      omega
    · exact Int.le_of_eq (Function.update_of_ne h _ _).symm
  have hwi : s.writer = some i := (hs.writer i o hi).1 (by rw [hp]; rfl)
  have hcase {j : Nat} {o' : Opener β}
      (hj : (s.openers.modify i fun o => { o with phase := .between m.version rest })[j]? = some o') :
      j = i ∧ o' = { o with phase := .between m.version rest } ∨
        s.openers[j]? = some o' ∧ o'.phase.writes = false := by
    obtain ⟨old, hold, rfl⟩ := openers_modify.1 hj
    by_cases hij : i = j
    · subst hij
      rw [hi] at hold
      cases hold
      exact .inl ⟨rfl, if_pos rfl⟩
    · rw [if_neg hij]
      refine .inr ⟨hold, ?_⟩
      rw [Bool.eq_false_iff]
      intro hw
      rw [hs.writer j old hold, hwi] at hw
      exact hij (Option.some.inj hw)
  refine ⟨?_, ?_, ?_, ?_, nofun⟩
  · intro owner
    by_cases h : owner = o.owner
    · subst h
      refine ⟨m.version, Function.update_self .., ?_, hle⟩
      rw [ownSteps_append, ownSteps_single, if_pos rfl, hown]
    · obtain ⟨n, hn, hsteps, hlen⟩ := hs.once owner
      refine ⟨n, ?_, ?_, hlen⟩
      · exact (Function.update_of_ne h ..).trans hn
      · rw [ownSteps_append, ownSteps_single, if_neg (Ne.symm h), List.append_nil, hsteps]
  · intro j o' hj
    rcases hcase hj with ⟨rfl, rfl⟩ | ⟨-, hw⟩
    · simp [Phase.writes, System.release]
    · simp [hw, System.release]
  · intro j o' hj
    rcases hcase hj with ⟨rfl, rfl⟩ | ⟨hj, -⟩
    · exact hs.known j o hi
    · exact hs.known j o' hj
  · intro j o' hj
    rcases hcase hj with ⟨rfl, rfl⟩ | ⟨hj, hw⟩
    · have hfits := hs.fits j o hi
      rw [Opener.Fits, hp] at hfits
      obtain ⟨⟨hsince, hseen, ⟨done, hknown, hdone⟩, hversion⟩, -, -⟩ := hfits
      refine ⟨?_, ?_, ⟨done ++ [m], by simp [hknown], ?_⟩, ?_⟩
      · simp only [List.length_append, List.length_singleton]
        omega
      · simpa only [List.take_append_of_le_length hsince] using hseen
      · simp only [List.length_append, List.length_singleton]
        omega
      · simp
    · exact fits_grow (hs.fits j o' hj) hw rfl (hgrow o'.owner)

theorem inv_arrive {s : System β} (hs : Inv plan s) (owner : Owner) (path : String) (k : Nat) :
    Inv plan { s with openers := s.openers ++ [⟨owner, path, (plan owner).steps.take k, .start, 0⟩] } := by
  have hget {j : Nat} {o : Opener β}
      (h : (s.openers ++ [⟨owner, path, (plan owner).steps.take k, .start, 0⟩])[j]? = some o) :
      s.openers[j]? = some o ∨
        j = s.openers.length ∧ o = ⟨owner, path, (plan owner).steps.take k, .start, 0⟩ := by
    rw [List.getElem?_append] at h
    split_ifs at h with hlt
    · exact .inl h
    · rw [List.getElem?_singleton] at h
      split_ifs at h with hz
      exact .inr ⟨by omega, (Option.some.inj h).symm⟩
  refine ⟨hs.once, ?_, ?_, ?_, ?_⟩
  · intro j o hj
    rcases hget hj with hj | ⟨rfl, rfl⟩
    · exact hs.writer j o hj
    · refine ⟨nofun, fun hw => ?_⟩
      exact absurd (hs.bound _ hw) (Nat.lt_irrefl _)
  · intro j o hj
    rcases hget hj with hj | ⟨-, rfl⟩
    · exact hs.known j o hj
    · exact ⟨k, rfl⟩
  · intro j o hj
    rcases hget hj with hj | ⟨-, rfl⟩
    · exact hs.fits j o hj
    · trivial
  · intro j hj
    have := hs.bound j hj
    simp only [List.length_append, List.length_singleton]
    omega

theorem currentVersion_ok {file : File β} {owner : Owner} {version : Nat}
    (h : currentVersion file owner = .ok version) : (version : Int) = file.recorded owner := by
  unfold currentVersion tryFromI64 at h
  split_ifs at h with hv
  cases h
  exact Int.toNat_of_nonneg hv.1

/-- The next call of an opener keeps the invariant. -/
theorem inv_advance {s s' : System β} (hs : Inv plan s) {i : Nat} {o : Opener β}
    (hi : s.openers[i]? = some o) {fault : Bool} (h : s.advance i o fault = some s') : Inv plan s' := by
  have hfits := hs.fits i o hi
  have hw := hs.writer i o hi
  unfold Opener.Fits at hfits
  unfold System.advance at h
  cases hp : o.phase with
  | start =>
    simp only [hp] at h hfits hw
    split_ifs at h with hf
    · cases h
      exact inv_setPhase hs hi (by rw [hp]; rfl) trivial
    · cases hv : currentVersion s.file o.owner with
      | error e =>
        simp only [hv] at h
        cases h
        exact inv_setPhase hs hi (by rw [hp]; rfl) trivial
      | ok version =>
        simp only [hv] at h
        split_ifs at h with hlt
        · cases h
          exact inv_setPhase hs hi (by rw [hp]; rfl) trivial
        · cases h
          refine inv_move hs hi (fun o => { o with
              phase := .between version o.known, since := s.file.applied.length }) s.writer rfl rfl ?_
            hw fun _ _ => Iff.rfl
          obtain ⟨n, hn, hown, -⟩ := hs.once o.owner
          obtain ⟨k, hk⟩ := hs.known i o hi
          have hvn : (version : Int) = n := hn ▸ currentVersion_ok hv
          have hlatest : latestVersion o.known = o.known.length := by rw [hk, latestVersion_take]
          change InLoop o.owner o.known s.file.applied.length s.file version o.known
          refine ⟨Nat.le_refl _, ?_, ⟨[], rfl, Nat.zero_le _⟩, by omega⟩
          rw [List.take_length, hown, List.length_take]
          omega
  | between version rest =>
    simp only [hp] at h hfits hw
    cases rest with
    | nil =>
      cases h
      exact inv_setPhase hs hi (by rw [hp]; rfl) trivial
    | cons m rest =>
      simp only at h
      split_ifs at h with hf hn
      · cases h
        exact inv_setPhase hs hi (by rw [hp]; rfl) trivial
      · cases h
        refine inv_move hs hi (fun o => { o with phase := .began version m rest }) (some i) rfl rfl
          hfits (by simp [Phase.writes]) fun j hj => ?_
        simp [hn, Ne.symm hj]
  | began version m rest =>
    simp only [hp] at h hfits hw
    split_ifs at h with hf
    · cases h
      exact inv_release hs hi (by rw [hp]; rfl) rfl trivial
    · cases hv : currentVersion s.file o.owner with
      | error e =>
        simp only [hv] at h
        cases h
        exact inv_release hs hi (by rw [hp]; rfl) rfl trivial
      | ok recorded =>
        simp only [hv] at h
        have hrec := currentVersion_ok hv
        split_ifs at h with hle
        · cases h
          obtain ⟨hsince, hseen, ⟨done, hknown, hdone⟩, hversion⟩ := hfits
          refine inv_release hs hi (by rw [hp]; rfl) rfl
            ⟨hsince, hseen, ⟨done ++ [m], by simp [hknown], ?_⟩, Int.le_of_eq hrec⟩
          obtain ⟨k, hk⟩ := hs.known i o hi
          have hm := ((plan o.owner).next_of_take (hk.symm.trans hknown)).1
          rw [List.length_append, List.length_singleton]
          omega
        · cases h
          exact inv_setPhase hs hi (by rw [hp]; rfl) ⟨hfits, hrec.symm, by omega⟩
  | outdated version recorded m rest =>
    simp only [hp] at h hfits hw
    split_ifs at h with hf
    · cases h
      exact inv_release hs hi (by rw [hp]; rfl) rfl trivial
    · cases h
      exact inv_setPhase hs hi (by rw [hp]; rfl) hfits
  | executed version recorded m rest =>
    simp only [hp] at h hfits hw
    split_ifs at h with hf
    · cases h
      exact inv_release hs hi (by rw [hp]; rfl) rfl trivial
    · cases h
      exact inv_commit hs hi hp
  | returned result =>
    simp only [hp] at h
    cases h
  | crashed =>
    simp only [hp] at h
    cases h

theorem inv_crash {s : System β} (hs : Inv plan s) {i : Nat} {o : Opener β}
    (hi : s.openers[i]? = some o) :
    Inv plan (if s.writer = some i then s.release i .crashed else s.setPhase i .crashed) := by
  have hw := hs.writer i o hi
  split_ifs with h
  · exact inv_release hs hi (hw.2 h) rfl trivial
  · refine inv_setPhase hs hi ?_ trivial
    exact (Bool.eq_false_iff.2 fun hwr => h (hw.1 hwr)).symm

theorem inv_step (s : System β) (a : Action) (s' : System β) (hs : Inv plan s)
    (h : step plan s a = some s') : Inv plan s' := by
  cases a with
  | arrive owner path known =>
    cases h
    exact inv_arrive hs owner path known
  | advance i fault =>
    obtain ⟨o, hi, h⟩ := Option.bind_eq_some_iff.1 h
    exact inv_advance hs hi h
  | crash i =>
    obtain ⟨o, hi, h⟩ := Option.bind_eq_some_iff.1 h
    have hcrash := inv_crash hs hi
    cases hp : o.phase <;> simp only [hp] at h <;> cases h <;> exact hcrash

/-- What a call does: it moves the opener, or commits; and `Ok` is what a loop with nothing left
returns. -/
theorem advance_effect {s s' : System β} {i : Nat} {o : Opener β} {fault : Bool}
    (h : s.advance i o fault = some s') :
    (∃ f w, s' = ⟨s.file, w, s.openers.modify i f⟩ ∧
      ∀ version, (f o).phase = .returned (.ok version) → o.phase = .between version []) ∨
    ∃ version recorded m rest, o.phase = .executed version recorded m rest ∧
      s' = { s.release i (.between m.version rest) with
        file := ⟨Function.update s.file.recorded o.owner (m.version : Int),
          s.file.applied ++ [(o.owner, m)]⟩ } := by
  have hmove (f : Opener β → Opener β) (w : Option Nat)
      (hs' : s' = ⟨s.file, w, s.openers.modify i f⟩)
      (hok : ∀ version, (f o).phase ≠ .returned (.ok version)) :
      ∃ f w, s' = ⟨s.file, w, s.openers.modify i f⟩ ∧
        ∀ version, (f o).phase = .returned (.ok version) → o.phase = .between version [] :=
    ⟨f, w, hs', fun version hv => absurd hv (hok version)⟩
  obtain ⟨phase, hp⟩ : ∃ phase, o.phase = phase := ⟨_, rfl⟩
  unfold System.advance at h
  rw [hp] at h
  cases phase with
  | start =>
    simp only at h
    split_ifs at h
    · exact .inl (hmove _ _ (Option.some.inj h).symm nofun)
    · cases hv : currentVersion s.file o.owner with
      | error e =>
        simp only [hv] at h
        exact .inl (hmove _ _ (Option.some.inj h).symm nofun)
      | ok version =>
        simp only [hv] at h
        split_ifs at h
        · exact .inl (hmove _ _ (Option.some.inj h).symm nofun)
        · exact .inl (hmove _ _ (Option.some.inj h).symm nofun)
  | between version rest =>
    cases rest with
    | nil =>
      refine .inl ⟨_, _, (Option.some.inj h).symm, fun v hv => ?_⟩
      cases hv
      exact hp
    | cons m rest =>
      simp only at h
      split_ifs at h
      · exact .inl (hmove _ _ (Option.some.inj h).symm nofun)
      · exact .inl (hmove _ _ (Option.some.inj h).symm nofun)
  | began version m rest =>
    simp only at h
    split_ifs at h
    · exact .inl (hmove _ _ (Option.some.inj h).symm nofun)
    · cases hv : currentVersion s.file o.owner with
      | error e =>
        simp only [hv] at h
        exact .inl (hmove _ _ (Option.some.inj h).symm nofun)
      | ok recorded =>
        simp only [hv] at h
        split_ifs at h
        · exact .inl (hmove _ _ (Option.some.inj h).symm nofun)
        · exact .inl (hmove _ _ (Option.some.inj h).symm nofun)
  | outdated version recorded m rest =>
    simp only at h
    split_ifs at h
    · exact .inl (hmove _ _ (Option.some.inj h).symm nofun)
    · exact .inl (hmove _ _ (Option.some.inj h).symm nofun)
  | executed version recorded m rest =>
    simp only at h
    split_ifs at h
    · exact .inl (hmove _ _ (Option.some.inj h).symm nofun)
    · exact .inr ⟨version, recorded, m, rest, hp, (Option.some.inj h).symm⟩
  | returned result => cases h
  | crashed => cases h

/-- Outside commits the file stays as it is. -/
theorem crash_file {s s' : System β} {i : Nat} (h : step plan s (.crash i) = some s') :
    s'.file = s.file ∧ ∃ w, s' = ⟨s.file, w, s.openers.modify i fun o => { o with phase := .crashed }⟩ := by
  obtain ⟨o, -, h⟩ := Option.bind_eq_some_iff.1 h
  have hcrash : ∃ w, (if s.writer = some i then s.release i .crashed else s.setPhase i .crashed) =
      ⟨s.file, w, s.openers.modify i fun o => { o with phase := .crashed }⟩ := by
    split_ifs
    · exact ⟨none, rfl⟩
    · exact ⟨s.writer, rfl⟩
  obtain ⟨w, hw⟩ := hcrash
  rw [hw] at h
  cases hp : o.phase <;> simp only [hp] at h <;> cases h <;> exact ⟨rfl, w, rfl⟩

/-- Recorded versions never go back. -/
theorem step_monotone {s s' : System β} {a : Action} (hs : Inv plan s) (h : step plan s a = some s')
    (owner : Owner) : s.file.recorded owner ≤ s'.file.recorded owner := by
  cases a with
  | arrive _ _ _ =>
    cases h
    exact Int.le_refl _
  | crash i =>
    have same := (crash_file h).1
    exact Int.le_of_eq (by rw [same])
  | advance i fault =>
    obtain ⟨o, hi, h⟩ := Option.bind_eq_some_iff.1 h
    rcases advance_effect h with ⟨f, w, rfl, -⟩ | ⟨version, recorded, m, rest, hp, rfl⟩
    · exact Int.le_refl _
    · obtain ⟨hrec, hm, -⟩ := commit_next hs hi hp
      by_cases ho : owner = o.owner
      · subst ho
        simp only [Function.update_self]
        omega
      · simp only [Function.update_of_ne ho]
        exact Int.le_refl _

/-- An opener that returns `Ok` had nothing left to apply. -/
theorem step_accepts {s s' : System β} {a : Action} (h : step plan s a = some s') {i : Nat}
    {o o' : Opener β} {version : Nat} (hi : s.openers[i]? = some o) (hi' : s'.openers[i]? = some o')
    (hp : ∀ result, o.phase ≠ .returned result) (hp' : o'.phase = .returned (.ok version)) :
    ∃ fault, a = .advance i fault ∧ o.phase = .between version [] ∧ s'.file = s.file := by
  have hlt : i < s.openers.length := (List.getElem?_eq_some_iff.1 hi).1
  cases a with
  | arrive owner path known =>
    cases h
    simp only [List.getElem?_append, if_pos hlt, hi, Option.some_inj] at hi'
    subst hi'
    exact absurd hp' (hp _)
  | crash j =>
    obtain ⟨-, w, rfl⟩ := crash_file h
    obtain ⟨old, hold, rfl⟩ := openers_modify.1 hi'
    rw [hi] at hold
    cases hold
    split_ifs at hp'
    exact absurd hp' (hp _)
  | advance j fault =>
    obtain ⟨oj, hj, h⟩ := Option.bind_eq_some_iff.1 h
    rcases advance_effect h with ⟨f, w, rfl, hok⟩ | ⟨v, recorded, m, rest, hpj, rfl⟩
    · obtain ⟨old, hold, rfl⟩ := openers_modify.1 hi'
      rw [hi] at hold
      cases hold
      split_ifs at hp' with hji
      · subst hji
        rw [hi] at hj
        cases hj
        exact ⟨fault, rfl, hok version hp', rfl⟩
      · exact absurd hp' (hp _)
    · obtain ⟨old, hold, rfl⟩ := openers_modify.1 hi'
      rw [hi] at hold
      cases hold
      split_ifs at hp'
      exact absurd hp' (hp _)

/-- In the last step of a loop the whole list is recorded. -/
theorem loop_end {s : System β} (hs : Inv plan s) {i : Nat} {o : Opener β}
    (hi : s.openers[i]? = some o) {version : Nat} (hp : o.phase = .between version []) :
    o.Loop s.file version [] ∧ (latestVersion o.known : Int) ≤ s.file.recorded o.owner := by
  have hfits := hs.fits i o hi
  rw [Opener.Fits, hp] at hfits
  obtain ⟨k, hk⟩ := hs.known i o hi
  have hlatest : latestVersion o.known = o.known.length := by rw [hk, latestVersion_take]
  obtain ⟨done, hknown, hdone⟩ := hfits.done
  have hversion := hfits.recorded
  rw [List.append_nil] at hknown
  exact ⟨hfits, by rw [hlatest, hknown]; omega⟩

/-- A step is sound exactly when it is not the last step of an opener that was overtaken. -/
theorem sound_iff {s s' : System β} {a : Action} (hs : Inv plan s) (h : step plan s a = some s') :
    Sound plan s s' ↔ NotOvertaken s a := by
  constructor
  · rintro hsound i fault o version rfl hi hp hover
    obtain ⟨hloop, -⟩ := loop_end hs hi hp
    have hlt := (overtaken_iff hs hi hloop).1 hover
    have hadvance : s.advance i o fault = some (s.setPhase i (.returned (.ok version))) := by
      simp only [System.advance, hp]
    have hs' : s' = s.setPhase i (.returned (.ok version)) := by
      simpa [step, hi, hadvance] using h.symm
    subst hs'
    have hi' : (s.setPhase i (.returned (.ok version))).openers[i]? =
        some { o with phase := .returned (.ok version) } :=
      openers_modify.2 ⟨o, hi, by simp⟩
    have heq := hsound.accepts i o _ version hi hi' (by simp [hp]) rfl
    have hfile : (s.setPhase i (.returned (.ok version))).file = s.file := rfl
    rw [hfile] at heq
    omega
  · intro hn
    refine ⟨(inv_step s a s' hs h).once, step_monotone hs h, ?_⟩
    intro i o o' version hi hi' hp hp'
    obtain ⟨fault, rfl, hbetween, hfile⟩ := step_accepts h hi hi' hp hp'
    obtain ⟨hloop, hle⟩ := loop_end hs hi hbetween
    have hnot := hn i fault o version rfl hi hbetween
    rw [overtaken_iff hs hi hloop] at hnot
    rw [hfile]
    omega

/-- In every interleaving of any number of openers of any number of builds, with any call failing
and any process dying, each step is applied once and in order, no version decreases, and no opener
is content with a version it does not know, exactly when none is overtaken in its last step. -/
theorem migrations_sound_iff (as : List Action) :
    (∀ t ∈ Run.trace (step plan) (System.new : System β) as, Sound plan t.1 t.2.2) ↔
      ∀ t ∈ Run.trace (step plan) (System.new : System β) as, NotOvertaken t.1 t.2.1 := by
  refine forall₂_congr fun t ht => ?_
  obtain ⟨hs, hstep⟩ := Run.trace_invariant inv_step as inv_new ht
  exact sound_iff hs hstep

end Plan

/-- Two steps for every owner. -/
def twoSteps (_ : Owner) : Plan Unit where
  steps := [⟨1, ()⟩, ⟨2, ()⟩]
  dense := by
    intro i hi
    match i, hi with
    | 0, _ => rfl
    | 1, _ => rfl

/-- A build that knows one step and a build that knows two both read version 0; the newer one
applies both its steps before the older one begins its transaction. -/
def raceRun : List Action :=
  [.arrive .core "store" 1, .arrive .core "store" 2, .advance 0 false, .advance 1 false] ++
    List.replicate 8 (.advance 1 false) ++ List.replicate 3 (.advance 0 false)

theorem older_build_accepts_newer_file :
    ∃ s o, Run.run (step twoSteps) System.new raceRun = some s ∧ s.openers[0]? = some o ∧
      o.phase = .returned (.ok 2) ∧ latestVersion o.known = 1 ∧ s.file.recorded .core = 2 :=
  ⟨_, _, rfl, rfl, rfl, rfl, rfl⟩

end SupraHarness.Store.Schema
