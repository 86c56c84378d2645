import SupraHarness.Lib.Descriptors
import SupraHarness.Ffi.LinuxSpawn

/-!
# Standard streams of a sandboxed child

The child's three standard descriptors are redirected one after the other on the table it was forked with. A later source
is read from the table that the earlier redirections left, a descriptor that is its own source keeps its flag, and a null
device that was opened on its own target is closed again, so a program finds the streams that were named for it under a
condition on the sources only.
-/
namespace SupraHarness.Ffi.Linux

open Descriptors

inductive Access where
  | read | write
  deriving DecidableEq, Repr

namespace Stream

def fd : Stream → Nat
  | stdin => 0
  | stdout => 1
  | stderr => 2

/-- How the null device is opened for a stream. -/
def access (stream : Stream) : Access := if stream.fd = 0 then .read else .write

end Stream

variable {F : Type}

/-- Point a child descriptor at `target`, or at the null device when it is negative. What opening the null device gives
is a parameter. -/
def redirect (device : Access → Option F) (table : Table F) (target : Int) (child : Stream) : Option (Table F) :=
  if target < 0 then
    (device child.access).bind fun file =>
      let (nullFd, opened) := table.openFile file
      (opened.dup2 nullFd child.fd).map fun table => table.close nullFd
  else table.dup2 target.toNat child.fd

/-- The redirections of the child; none where one of them fails and no program is started. -/
def redirections (device : Access → Option F) (table : Table F) (source : Stream → Int) : Option (Table F) := do
  let table ← redirect device table (source .stdin) .stdin
  let table ← redirect device table (source .stdout) .stdout
  redirect device table (source .stderr) .stderr

/-- Sources for the streams, each an open descriptor of the table or negative. -/
structure Sources (table : Table F) where
  source : Stream → Int
  isOpen : ∀ stream, 0 ≤ source stream → table.get (source stream).toNat ≠ none

variable {table : Table F}

/-- The file that a source names before the first redirection. -/
def Sources.named (sources : Sources table) (device : Access → Option F) (stream : Stream) : Option F :=
  if sources.source stream < 0 then device stream.access
  else (table.get (sources.source stream).toNat).map Descriptor.file

/-- The stream is the file that was named for it, and stays open at the start of a program. -/
def Holds (device : Access → Option F) (sources : Sources table) (current : Table F) (stream : Stream) : Prop :=
  ∃ file, sources.named device stream = some file ∧ current.get stream.fd = some ⟨file, false⟩

/-- A program that is started finds under each standard descriptor the file that was named for it. -/
def Redirected (device : Access → Option F) (sources : Sources table) : Prop :=
  ∀ final, redirections device table sources.source = some final → ∀ stream, Holds device sources final.exec stream

/-- A null device that is needed cannot be opened. -/
def Refused (device : Access → Option F) (sources : Sources table) : Prop :=
  ∃ stream, sources.source stream < 0 ∧ device stream.access = none

/-- The stream is not lost: the null device replaces an open descriptor, a descriptor that is its own source is not
closed at the start of a program, and an earlier stream that is the source is redirected to the file it refers to. -/
structure Undisturbed (device : Access → Option F) (sources : Sources table) (stream : Stream) : Prop where
  null : sources.source stream < 0 → table.get stream.fd ≠ none
  self : sources.source stream = stream.fd → ∀ descriptor ∈ table.get stream.fd, descriptor.closeOnExec = false
  earlier : ∀ other : Stream, other.fd < stream.fd → sources.source stream = other.fd →
    sources.named device other = sources.named device stream

/-! ## One redirection -/

theorem Stream.fd_inj {stream other : Stream} (h : stream.fd = other.fd) : stream = other := by
  cases stream <;> cases other <;> first | rfl | cases h

theorem Stream.exists_of_lt {stream : Stream} {fd : Nat} (h : fd < stream.fd) : ∃ other : Stream, other.fd = fd := by
  have small : fd = 0 ∨ fd = 1 := by
    have : stream.fd ≤ 2 := by cases stream <;> decide
    omega
  rcases small with rfl | rfl
  · exact ⟨.stdin, rfl⟩
  · exact ⟨.stdout, rfl⟩

variable {device : Access → Option F} {target : Int} {child : Stream}

/-- The null device stands under the target, unless it was opened there and closed again. -/
theorem redirect_null {file : F} (negative : target < 0) (there : device child.access = some file) :
    ∃ next, redirect device table target child = some next ∧ ∀ fd, next.get fd =
      if fd = child.fd then (if table.lowest = child.fd then none else some ⟨file, false⟩) else table.get fd := by
  have opened : (table.openFile file).2.get (table.openFile file).1 = some ⟨file, false⟩ := if_pos rfl
  obtain ⟨middle, duplicated⟩ := Table.dup2_of_open (by rw [opened]; simp) child.fd
  refine ⟨middle.close table.lowest, ?_, fun fd => ?_⟩
  · rw [redirect, if_pos negative, there, Option.bind_some]
    dsimp only
    rw [duplicated, Option.map_some]
    rfl
  · have others : (table.openFile file).2.get fd = if fd = table.lowest then some ⟨file, false⟩ else table.get fd := rfl
    have number : (table.openFile file).1 = table.lowest := rfl
    rw [Table.close, Table.get_set, Table.get_dup2 duplicated fd, opened, others, number, Option.map_some]
    by_cases lowest : fd = table.lowest
    · subst lowest
      rw [if_pos rfl]
      by_cases here : table.lowest = child.fd
      · rw [if_pos here, if_pos here]
      · rw [if_neg here, table.get_lowest]
    · rw [if_neg lowest, if_neg lowest]
      by_cases here : fd = child.fd
      · subst here
        rw [if_pos ⟨rfl, Ne.symm lowest⟩, if_pos rfl, if_neg (Ne.symm lowest)]
      · rw [if_neg fun both => here both.1, if_neg here]

theorem redirect_descriptor {source : Nat} (isOpen : table.get source ≠ none) :
    ∃ next, redirect device table source child = some next ∧ ∀ fd, next.get fd =
      if fd = child.fd ∧ source ≠ child.fd then (table.get source).map fun descriptor => ⟨descriptor.file, false⟩
      else table.get fd := by
  obtain ⟨next, duplicated⟩ := Table.dup2_of_open isOpen child.fd
  refine ⟨next, ?_, Table.get_dup2 duplicated⟩
  rw [redirect, if_neg (by omega), Int.toNat_natCast, duplicated]

variable {sources : Sources table} {current : Table F} {stream : Stream}

/-- What the redirections before one leave: its own descriptor and the ones above as they were, and every descriptor open
that was. -/
structure Before (table current : Table F) (stream : Stream) : Prop where
  above : ∀ fd, stream.fd ≤ fd → current.get fd = table.get fd
  isOpen : ∀ fd, table.get fd ≠ none → current.get fd ≠ none

/-- What one redirection leaves. -/
structure After (table current next : Table F) (stream : Stream) : Prop where
  others : ∀ fd, fd ≠ stream.fd → next.get fd = current.get fd
  isOpen : ∀ fd, table.get fd ≠ none → next.get fd ≠ none

/-- A redirection to the null device. -/
theorem redirect_step_null (before : Before table current stream) (negative : sources.source stream < 0)
    (there : device stream.access ≠ none) :
    ∃ next, redirect device current (sources.source stream) stream = some next ∧ After table current next stream ∧
      ((∀ other : Stream, other.fd < stream.fd → Holds device sources current other) →
        (Holds device sources next stream ↔ Undisturbed device sources stream)) := by
  obtain ⟨file, there⟩ := Option.ne_none_iff_exists'.1 there
  obtain ⟨next, run, get⟩ := @redirect_null _ current _ _ _ file negative there
  have named : sources.named device stream = some file := by rw [Sources.named, if_pos negative, there]
  have here := before.above stream.fd (Nat.le_refl _)
  refine ⟨next, run, ⟨fun fd other => by rw [get, if_neg other], fun fd isOpen => ?_⟩, fun lower => ?_⟩
  · rw [get]
    by_cases same : fd = stream.fd
    · subst same
      have taken : current.lowest ≠ stream.fd := fun lowest =>
        isOpen (by rw [← here, ← lowest, current.get_lowest])
      rw [if_pos rfl, if_neg taken]
      simp
    · rw [if_neg same]
      exact before.isOpen fd isOpen
  · have below : ∀ fd < stream.fd, current.get fd ≠ none := by
      intro fd lt
      obtain ⟨other, rfl⟩ := Stream.exists_of_lt lt
      obtain ⟨file, -, found⟩ := lower other lt
      rw [found]
      simp
    have lowest := Table.lowest_eq_iff below
    rw [here] at lowest
    constructor
    · rintro ⟨file', -, found⟩
      refine ⟨fun _ free => ?_, fun self => by omega, fun other _ self => by omega⟩
      rw [get, if_pos rfl, if_pos (lowest.2 free)] at found
      cases found
    · intro undisturbed
      refine ⟨file, named, ?_⟩
      rw [get, if_pos rfl, if_neg fun free => undisturbed.null negative (lowest.1 free)]

/-- A redirection to a descriptor. -/
theorem redirect_step_descriptor (before : Before table current stream) {source : Nat}
    (positive : sources.source stream = source) :
    ∃ next, redirect device current (sources.source stream) stream = some next ∧ After table current next stream ∧
      ((∀ other : Stream, other.fd < stream.fd → Holds device sources current other) →
        (Holds device sources next stream ↔ Undisturbed device sources stream)) := by
  have isOpen : table.get source ≠ none := by
    have given := sources.isOpen stream (by omega)
    rwa [positive, Int.toNat_natCast] at given
  obtain ⟨descriptor, found⟩ := Option.ne_none_iff_exists'.1 isOpen
  have named : sources.named device stream = some descriptor.file := by
    rw [Sources.named, if_neg (by omega), positive, Int.toNat_natCast, found, Option.map_some]
  have still := before.isOpen source isOpen
  obtain ⟨next, run, get⟩ := @redirect_descriptor _ current device stream _ still
  rw [← positive] at run
  refine ⟨next, run, ⟨fun fd other => by rw [get, if_neg fun both => other both.1], fun fd isOpen => ?_⟩, fun lower => ?_⟩
  · rw [get]
    split
    · simpa using still
    · exact before.isOpen fd isOpen
  · rw [Holds, get, named]
    have null : ¬ sources.source stream < 0 := by omega
    rcases Nat.lt_trichotomy source stream.fd with lt | same | gt
    · obtain ⟨other, rfl⟩ := Stream.exists_of_lt lt
      obtain ⟨file, named', current'⟩ := lower other lt
      rw [if_pos ⟨rfl, Nat.ne_of_lt lt⟩, current', Option.map_some]
      constructor
      · rintro ⟨file', same, eq⟩
        refine ⟨fun negative => absurd negative null, fun self => by omega, fun other' _ self => ?_⟩
        have same' : other' = other := Stream.fd_inj (by omega)
        subst same'
        cases eq
        rw [named', named, same]
      · intro undisturbed
        have same := undisturbed.earlier other lt positive
        rw [named', named] at same
        exact ⟨file, same.symm, rfl⟩
    · subst same
      rw [if_neg fun both => both.2 rfl, before.above _ (Nat.le_refl _), found]
      constructor
      · rintro ⟨file, -, eq⟩
        refine ⟨fun negative => absurd negative null, fun _ => ?_, fun other lt self => by omega⟩
        cases eq
        intro descriptor mem
        rw [found] at mem
        cases mem
        rfl
      · intro undisturbed
        have flag := undisturbed.self positive descriptor found
        obtain ⟨file, closeOnExec⟩ := descriptor
        cases flag
        exact ⟨file, rfl, rfl⟩
    · rw [if_pos ⟨rfl, Nat.ne_of_gt gt⟩, before.above source (Nat.le_of_lt gt), found, Option.map_some]
      refine iff_of_true ⟨descriptor.file, rfl, rfl⟩ ⟨fun negative => absurd negative null, ?_, ?_⟩
      · intro self
        omega
      · intro other lt self
        omega

theorem redirect_step (before : Before table current stream) (there : ¬ Refused device sources) :
    ∃ next, redirect device current (sources.source stream) stream = some next ∧ After table current next stream ∧
      ((∀ other : Stream, other.fd < stream.fd → Holds device sources current other) →
        (Holds device sources next stream ↔ Undisturbed device sources stream)) := by
  by_cases negative : sources.source stream < 0
  · exact redirect_step_null before negative fun none_ => there ⟨stream, negative, none_⟩
  · obtain ⟨source, positive⟩ := Int.eq_ofNat_of_zero_le (Int.not_lt.1 negative)
    exact redirect_step_descriptor before positive

/-! ## Three redirections -/

theorem Before.start (stream : Stream) : Before table table stream := ⟨fun _ _ => rfl, fun _ h => h⟩

theorem Before.next {next : Table F} {other : Stream} (before : Before table current stream)
    (after : After table current next stream) (lt : stream.fd < other.fd) : Before table next other where
  above fd le := by rw [after.others fd (by omega), before.above fd (by omega)]
  isOpen := after.isOpen

/-- A redirection leaves the other streams as they are. -/
theorem Holds.after {next : Table F} {other : Stream} (after : After table current next stream) (ne : other.fd ≠ stream.fd) :
    Holds device sources next other ↔ Holds device sources current other := by
  rw [Holds, Holds, after.others other.fd ne]

theorem holds_exec : Holds device sources current.exec stream ↔ Holds device sources current stream := by
  simp only [Holds, Table.get_exec_eq_some, and_true]

theorem redirect_refused (refused : target < 0 ∧ device child.access = none) (current : Table F) :
    redirect device current target child = none := by
  rw [redirect, if_pos refused.1, refused.2, Option.bind_none]

theorem redirections_refused (refused : Refused device sources) : redirections device table sources.source = none := by
  obtain ⟨stream, refused⟩ := refused
  rw [redirections]
  cases stream with
  | stdin =>
    rw [redirect_refused refused]
    rfl
  | stdout =>
    cases redirect device table (sources.source .stdin) .stdin with
    | none => rfl
    | some current =>
      change (redirect device current _ Stream.stdout >>= _) = none
      rw [redirect_refused refused]
      rfl
  | stderr =>
    cases redirect device table (sources.source .stdin) .stdin with
    | none => rfl
    | some current =>
      change (redirect device current _ Stream.stdout >>= _) = none
      cases redirect device current (sources.source .stdout) .stdout with
      | none => rfl
      | some current => exact redirect_refused refused current

/-- A program finds the streams that were named for it if and only if none is disturbed, or none is started. -/
theorem redirected_iff (device : Access → Option F) (sources : Sources table) :
    Redirected device sources ↔ Refused device sources ∨ ∀ stream, Undisturbed device sources stream := by
  by_cases refused : Refused device sources
  · refine iff_of_true (fun final run => ?_) (.inl refused)
    rw [redirections_refused refused] at run
    cases run
  · obtain ⟨first, run0, after0, step0⟩ := redirect_step (Before.start .stdin) refused
    have before1 : Before table first .stdout := (Before.start .stdin).next after0 (by decide)
    obtain ⟨second, run1, after1, step1⟩ := redirect_step before1 refused
    have before2 : Before table second .stderr := before1.next after1 (by decide)
    obtain ⟨final, run2, after2, step2⟩ := redirect_step before2 refused
    have run : redirections device table sources.source = some final := by
      rw [redirections, run0]
      change (redirect device first _ Stream.stdout >>= _) = _
      rw [run1]
      exact run2
    have stdin : Holds device sources final .stdin ↔ Holds device sources first .stdin :=
      (Holds.after after2 (by decide)).trans (Holds.after after1 (by decide))
    have stdout : Holds device sources final .stdout ↔ Holds device sources second .stdout :=
      Holds.after after2 (by decide)
    have undisturbed0 := step0 fun other lt => absurd lt (Nat.not_lt_zero _)
    have lower1 (holds0 : Holds device sources first .stdin) (other : Stream) (lt : other.fd < Stream.stdout.fd) :
        Holds device sources first other := by
      cases other with
      | stdin => exact holds0
      | stdout => cases Nat.lt_irrefl _ lt
      | stderr => exact absurd lt (by decide)
    have lower2 (holds0 : Holds device sources first .stdin) (holds1 : Holds device sources second .stdout)
        (other : Stream) (lt : other.fd < Stream.stderr.fd) : Holds device sources second other := by
      cases other with
      | stdin => exact (Holds.after after1 (by decide)).2 holds0
      | stdout => exact holds1
      | stderr => cases Nat.lt_irrefl _ lt
    constructor
    · intro redirected
      have holds (stream : Stream) : Holds device sources final stream := holds_exec.1 (redirected final run stream)
      have holds0 := stdin.1 (holds .stdin)
      have holds1 := stdout.1 (holds .stdout)
      refine .inr fun stream => ?_
      cases stream with
      | stdin => exact undisturbed0.1 holds0
      | stdout => exact (step1 (lower1 holds0)).1 holds1
      | stderr => exact (step2 (lower2 holds0 holds1)).1 (holds .stderr)
    · rintro (refused' | undisturbed)
      · exact absurd refused' refused
      · intro final' run'
        rw [run] at run'
        cases run'
        have holds0 := undisturbed0.2 (undisturbed .stdin)
        have holds1 := (step1 (lower1 holds0)).2 (undisturbed .stdout)
        have holds2 := (step2 (lower2 holds0 holds1)).2 (undisturbed .stderr)
        intro stream
        refine holds_exec.2 ?_
        cases stream with
        | stdin => exact stdin.2 holds0
        | stdout => exact stdout.2 holds1
        | stderr => exact holds2

/-- A table whose descriptor 0 is closed, and null devices for all three streams. -/
def closedStdin : Table Nat where
  get fd := if fd = 1 ∨ fd = 2 then some ⟨fd, false⟩ else none
  bound := 3
  free fd le := by rw [if_neg (by omega)]

def nullSources : Sources closedStdin := ⟨fun _ => -1, fun _ positive => absurd positive (by decide)⟩

/-- A table with the three standard descriptors open, and the last two named for each other. -/
def standard : Table Nat where
  get fd := if fd < 3 then some ⟨fd, false⟩ else none
  bound := 3
  free fd le := by rw [if_neg (by omega)]

def swappedSources : Sources standard where
  source
    | .stdin => 0
    | .stdout => 2
    | .stderr => 1
  isOpen stream _ := by cases stream <;> decide

/-- The program is started without a standard input, and with one file under both of its outputs. -/
theorem redirections_lose :
    (∃ final, redirections (fun _ => some 9) closedStdin nullSources.source = some final ∧ final.exec.get 0 = none) ∧
    ¬ Redirected (fun _ => some 9) nullSources ∧ ¬ Redirected (fun _ => some 9) swappedSources := by
  refine ⟨⟨_, rfl, rfl⟩, fun redirected => ?_, fun redirected => ?_⟩
  · obtain ⟨file, -, found⟩ := redirected _ rfl .stdin
    cases found
  · obtain ⟨file, named, found⟩ := redirected _ rfl .stderr
    cases named
    cases found

end SupraHarness.Ffi.Linux
