import Mathlib.Data.List.Basic

/-!
# Killing a sandboxed child

A child is asked to end, is waited for, and is killed if it has not ended when the grace period is over. A wait polls, so
that it ends with its timeout, but a timeout of zero stands for a wait without end. The Linux library hands the grace
period on as it is, and for a grace period of zero it waits without end for a child that was only asked; the macOS
library hands on one millisecond instead.
-/
namespace SupraHarness.Ffi.Process

inductive Signal where
  | sigterm | sigkill
  deriving DecidableEq, Repr

/-- A system call on the child or its group. -/
inductive Call where
  | kill (signal : Signal)
  | waitpid (nohang : Bool)
  | usleep (microseconds : UInt32)
  deriving DecidableEq, Repr

inductive KillReply where
  | sent | noGroup | refused
  deriving DecidableEq, Repr

/-- A status that `waitpid` tells. -/
inductive WaitStatus where
  | exited (code : Int)
  | signaled (signal : Int)
  | other
  deriving DecidableEq, Repr

inductive WaitReply where
  | ended (status : WaitStatus)
  | running
  | interrupted
  | failed
  deriving DecidableEq, Repr

/-- What the calls are answered, whatever was called before. A blocking wait may not return. -/
structure World where
  kill : List Call → Signal → KillReply
  poll : List Call → WaitReply
  block : List Call → Option (Option WaitStatus)

/-- What `supra_sandbox_wait` returns: 1 with the status, 0 or -1. -/
inductive WaitResult where
  | exited (status : Int)
  | timeout
  | error
  deriving DecidableEq, Repr

def decodeStatus : WaitStatus → Int
  | .exited code => code
  | .signaled signal => 128 + signal
  | .other => -1

/-- The calls that were made, and what was returned if anything was. -/
abbrev Run (α : Type) := List Call × Option α

namespace Linux

/-- The polling loop, for at most as many rounds as there is fuel. -/
def poll (world : World) (timeout : UInt32) : Nat → UInt32 → List Call → Run WaitResult
  | 0, _, calls => (calls, none)
  | fuel + 1, waited, calls =>
    if waited < timeout then
      match world.poll calls with
      | .ended status => (calls ++ [.waitpid true], some (.exited (decodeStatus status)))
      | .interrupted | .failed => (calls ++ [.waitpid true], some .error)
      | .running => poll world timeout fuel (waited + 5) (calls ++ [.waitpid true, .usleep (5 * 1000)])
    else (calls, some .timeout)

/-- `supra_sandbox_wait` -/
def wait (world : World) (timeout : UInt32) (calls : List Call) : Run WaitResult :=
  if timeout = 0 then
    (calls ++ [.waitpid false], (world.block calls).map fun status =>
      match status with
      | some status => .exited (decodeStatus status)
      | none => .error)
  else poll world timeout (timeout.toNat + 1) 0 calls

/-- `supra_sandbox_kill` -/
def kill (world : World) (pid : Option Int) (grace : UInt32) : Run Bool :=
  match pid with
  | none => ([], some false)
  | some pid =>
    if pid < 0 then ([], some false)
    else if world.kill [] .sigterm = .refused then ([.kill .sigterm], some false)
    else
      match wait world grace [.kill .sigterm] with
      | (calls, none) => (calls, none)
      | (calls, some (.exited _)) => (calls, some true)
      | (calls, some _) =>
        let final := wait world 1000 (calls ++ [.kill .sigkill])
        (final.1, final.2.map fun result => match result with
          | .exited _ => true
          | _ => false)

end Linux

namespace Mac

/-- The end of a wait that found the child ended: the rest of its group is killed. -/
def finish (world : World) (calls : List Call) (status : WaitStatus) : Run WaitResult :=
  (calls ++ [.kill .sigkill],
    some (if world.kill calls .sigkill = .refused then .error else .exited (decodeStatus status)))

/-- The polling loop, for at most as many rounds as there is fuel. -/
def poll (world : World) (timeout : UInt32) : Nat → UInt32 → List Call → Run WaitResult
  | 0, _, calls => (calls, none)
  | fuel + 1, waited, calls =>
    if waited < timeout then
      match world.poll calls with
      | .ended status => finish world (calls ++ [.waitpid true]) status
      | .failed => (calls ++ [.waitpid true], some .error)
      | .running | .interrupted =>
        let remaining := timeout - waited
        let delay := if remaining < 5 then remaining else 5
        poll world timeout fuel (waited + delay) (calls ++ [.waitpid true, .usleep (delay * 1000)])
    else (calls, some .timeout)

/-- `supra_sandbox_wait`; a blocking wait that is interrupted is taken up again. -/
def wait (world : World) (timeout : UInt32) (calls : List Call) : Run WaitResult :=
  if timeout = 0 then
    match world.block calls with
    | none => (calls ++ [.waitpid false], none)
    | some none => (calls ++ [.waitpid false], some .error)
    | some (some status) => finish world (calls ++ [.waitpid false]) status
  else poll world timeout (timeout.toNat + 1) 0 calls

/-- `supra_sandbox_kill` -/
def kill (world : World) (pid : Option Int) (grace : UInt32) : Run Bool :=
  match pid with
  | none => ([], some false)
  | some pid =>
    if pid < 0 then ([], some false)
    else if world.kill [] .sigterm = .refused then ([.kill .sigterm], some false)
    else
      match wait world (if grace = 0 then 1 else grace) [.kill .sigterm] with
      | (calls, none) => (calls, none)
      | (calls, some (.exited _)) => (calls, some true)
      | (calls, some _) =>
        if world.kill calls .sigkill = .refused then (calls ++ [.kill .sigkill], some false)
        else
          let final := wait world 1000 (calls ++ [.kill .sigkill])
          (final.1, final.2.map fun result => match result with
            | .exited _ => true
            | _ => false)

end Mac

inductive Platform where
  | linux | macos
  deriving DecidableEq, Repr

/-- `supra_sandbox_kill` -/
def supraSandboxKill : Platform → World → Option Int → UInt32 → Run Bool
  | .linux => Linux.kill
  | .macos => Mac.kill

/-! ## Waits -/

/-- A call that takes a bounded time: no blocking wait, and sleeps of at most five milliseconds. -/
def Call.Bounded : Call → Prop
  | .waitpid nohang => nohang = true
  | .usleep microseconds => microseconds.toNat ≤ 5000
  | .kill _ => True

/-- One of the polls found the child ended. -/
def FoundEnded (world : World) (calls : List Call) : Prop :=
  ∃ before after status, calls = before ++ .waitpid true :: after ∧ world.poll before = .ended status

/-- The rounds of a polling wait. -/
def rounds (milliseconds : Nat) : Nat := (milliseconds + 4) / 5

/-- A wait that returns after so many polls. -/
def Returns (world : World) (limit : Nat) (calls : List Call) (run : Run WaitResult) : Prop :=
  ∃ made result, run = (calls ++ made, some result) ∧ (∀ call ∈ made, call.Bounded) ∧
    made.count (.waitpid true) ≤ limit ∧ (∀ status, result = .exited status → FoundEnded world (calls ++ made))

variable {world : World} {timeout waited : UInt32} {calls : List Call}

theorem Returns.mono {limit limit' : Nat} {run : Run WaitResult} (h : Returns world limit calls run)
    (le : limit ≤ limit') : Returns world limit' calls run := by
  obtain ⟨made, result, hrun, bounded, count, ended⟩ := h
  exact ⟨made, result, hrun, bounded, Nat.le_trans count le, ended⟩

/-- One round more in front of a wait. -/
theorem Returns.round {limit : Nat} {run : Run WaitResult} {delay : UInt32} (hdelay : delay.toNat ≤ 5000)
    (h : Returns world limit (calls ++ [.waitpid true, .usleep delay]) run) : Returns world (limit + 1) calls run := by
  obtain ⟨made, result, rfl, bounded, count, ended⟩ := h
  refine ⟨[.waitpid true, .usleep delay] ++ made, result, by rw [List.append_assoc], ?_, ?_, ?_⟩
  · intro call mem
    rcases List.mem_append.1 mem with mem | mem
    · rcases List.mem_pair.1 mem with rfl | rfl
      · rfl
      · exact hdelay
    · exact bounded call mem
  · simp
    omega
  · intro status h
    rw [← List.append_assoc]
    exact ended status h

theorem Returns.late : Returns world 0 calls (calls, some .timeout) :=
  ⟨[], _, by rw [List.append_nil], by simp, Nat.le_refl _, by simp⟩

/-- A wait whose first poll decides it. -/
theorem Returns.decided {made : List Call} {result : WaitResult}
    (bounded : ∀ call ∈ made, call.Bounded) (polls : made.count (.waitpid true) = 0)
    (ended : ∀ status, result = .exited status → ∃ status, world.poll calls = .ended status) :
    Returns world 1 calls (calls ++ .waitpid true :: made, some result) := by
  refine ⟨.waitpid true :: made, result, rfl, ?_, ?_, ?_⟩
  · rw [List.forall_mem_cons]
    exact ⟨rfl, bounded⟩
  · exact Nat.le_of_eq (by rw [List.count_cons_self, polls])
  · intro status h
    obtain ⟨status, poll⟩ := ended status h
    exact ⟨calls, made, status, rfl, poll⟩

theorem rounds_succ (milliseconds : Nat) (h : 0 < milliseconds) :
    rounds (milliseconds - min milliseconds 5) + 1 = rounds milliseconds := by
  rw [rounds, rounds]
  omega

/-- The counter of the polling loop stays a multiple of the interval, so that it does not pass the largest number. -/
theorem Linux.poll_returns (fuel : Nat) (multiple : 5 ∣ waited.toNat) (enough : timeout.toNat - waited.toNat < fuel) :
    Returns world (rounds (timeout.toNat - waited.toNat)) calls (Linux.poll world timeout fuel waited calls) := by
  induction fuel generalizing waited calls with
  | zero => omega
  | succ fuel ih =>
    rw [Linux.poll]
    by_cases more : waited < timeout
    · rw [if_pos more]
      have lt := UInt32.lt_iff_toNat_lt.1 more
      have largest := timeout.toNat_lt
      have next : (waited + 5).toNat = waited.toNat + 5 := by
        have five : (5 : UInt32).toNat = 5 := rfl
        rw [UInt32.toNat_add, five]
        omega
      have last := rounds_succ (timeout.toNat - waited.toNat) (by omega)
      cases answer : world.poll calls with
      | ended status => exact (Returns.decided (by simp) rfl fun _ _ => ⟨status, answer⟩).mono (by omega)
      | interrupted => exact (Returns.decided (by simp) rfl (by simp)).mono (by omega)
      | failed => exact (Returns.decided (by simp) rfl (by simp)).mono (by omega)
      | running =>
        have later : Returns world _ _ (Linux.poll world timeout fuel (waited + 5)
            (calls ++ [.waitpid true, .usleep (5 * 1000)])) := ih (by rw [next]; omega) (by rw [next]; omega)
        refine (later.round (by decide)).mono ?_
        rw [next, ← last, rounds, rounds]
        omega
    · rw [if_neg more]
      exact Returns.late.mono (Nat.zero_le _)

theorem Mac.finish_returns {status : WaitStatus} (answer : world.poll calls = .ended status) :
    Returns world 1 calls (Mac.finish world (calls ++ [.waitpid true]) status) := by
  rw [Mac.finish, List.append_assoc, List.singleton_append]
  refine Returns.decided ?_ rfl fun _ _ => ⟨status, answer⟩
  rw [List.forall_mem_singleton]
  trivial

theorem Mac.poll_returns (fuel : Nat) (le : waited.toNat ≤ timeout.toNat)
    (enough : timeout.toNat - waited.toNat < fuel) :
    Returns world (rounds (timeout.toNat - waited.toNat)) calls (Mac.poll world timeout fuel waited calls) := by
  induction fuel generalizing waited calls with
  | zero => omega
  | succ fuel ih =>
    rw [Mac.poll]
    by_cases more : waited < timeout
    · rw [if_pos more]
      have lt := UInt32.lt_iff_toNat_lt.1 more
      have largest := timeout.toNat_lt
      have remaining : (timeout - waited).toNat = timeout.toNat - waited.toNat :=
        UInt32.toNat_sub_of_le _ _ (UInt32.le_iff_toNat_le.2 le)
      have last := rounds_succ (timeout.toNat - waited.toNat) (by omega)
      have again : Returns world (rounds (timeout.toNat - waited.toNat)) calls
          (let remaining := timeout - waited
          let delay := if remaining < 5 then remaining else 5
          Mac.poll world timeout fuel (waited + delay) (calls ++ [.waitpid true, .usleep (delay * 1000)])) := by
        dsimp only
        generalize hdelay : (if timeout - waited < 5 then timeout - waited else 5) = delay
        have five : (5 : UInt32).toNat = 5 := rfl
        have small : delay.toNat = min (timeout.toNat - waited.toNat) 5 := by
          rw [← hdelay]
          split
          · rename_i short
            rw [UInt32.lt_iff_toNat_lt, remaining, five] at short
            omega
          · rename_i long
            rw [UInt32.lt_iff_toNat_lt, remaining, five] at long
            omega
        have next : (waited + delay).toNat = waited.toNat + delay.toNat := by
          rw [UInt32.toNat_add]
          omega
        have sleeps : (delay * 1000).toNat ≤ 5000 := by
          have thousand : (1000 : UInt32).toNat = 1000 := rfl
          have le5 : delay.toNat ≤ 5 := small ▸ Nat.min_le_right _ _
          rw [UInt32.toNat_mul, thousand]
          exact Nat.le_trans (Nat.mod_le _ _) (by omega)
        have later : Returns world _ _ (Mac.poll world timeout fuel (waited + delay)
            (calls ++ [.waitpid true, .usleep (delay * 1000)])) := ih (by omega) (by omega)
        have rest : timeout.toNat - (waited + delay).toNat =
            timeout.toNat - waited.toNat - min (timeout.toNat - waited.toNat) 5 := by
          rw [next, small, Nat.sub_sub]
        exact (later.round sleeps).mono (Nat.le_of_eq (by rw [rest, last]))
      cases answer : world.poll calls with
      | ended status => exact (Mac.finish_returns answer).mono (by omega)
      | failed => exact (Returns.decided (by simp) rfl (by simp)).mono (by omega)
      | interrupted => exact again
      | running => exact again
    · rw [if_neg more]
      exact Returns.late.mono (Nat.zero_le _)

theorem Linux.wait_returns (positive : timeout ≠ 0) :
    Returns world (rounds timeout.toNat) calls (Linux.wait world timeout calls) := by
  rw [Linux.wait, if_neg positive]
  exact Linux.poll_returns _ (Nat.dvd_zero 5) (Nat.lt_succ_self _)

theorem Mac.wait_returns (positive : timeout ≠ 0) :
    Returns world (rounds timeout.toNat) calls (Mac.wait world timeout calls) := by
  rw [Mac.wait, if_neg positive]
  exact Mac.poll_returns _ (Nat.zero_le _) (Nat.lt_succ_self _)

/-! ## Kills -/

/-- With a grace period of zero the Linux library waits without end for a child that was only asked. -/
theorem Linux.kill_blocks {pid : Int} (process : ¬ pid < 0) (sent : world.kill [] .sigterm ≠ .refused) :
    [.kill .sigterm, .waitpid false] <+: (Linux.kill world (some pid) 0).1 := by
  rw [Linux.kill, if_neg process, if_neg sent, Linux.wait, if_pos rfl]
  rcases world.block [.kill .sigterm] with _ | _ | status
  · exact List.prefix_refl _
  · obtain ⟨made, result, hrun, -⟩ : Returns world (rounds 1000) ([.kill .sigterm, .waitpid false] ++ [.kill .sigkill])
        (Linux.wait world 1000 ([.kill .sigterm, .waitpid false] ++ [.kill .sigkill])) := Linux.wait_returns (by decide)
    have calls := congrArg Prod.fst hrun
    refine ⟨.kill .sigkill :: made, ?_⟩
    exact calls.symm
  · exact List.prefix_refl _

/-- The child was asked to end and, unless it was found ended by the wait for its grace period, killed before the final
wait; every call took a bounded time, and there were as many polls as the grace period has room for, and a second's. -/
structure Escalates (world : World) (pid : Option Int) (grace : UInt32) (run : Run Bool) : Prop where
  returns : ∃ answer, run.2 = some answer
  bounded : ∀ call ∈ run.1, call.Bounded
  polls : run.1.count (.waitpid true) ≤ rounds (max grace.toNat 1) + rounds 1000
  killed : (∀ p ∈ pid, p < 0) ∨ ∃ asked final, run.1 = .kill .sigterm :: asked ++ final ∧
    asked.count (.waitpid true) ≤ rounds (max grace.toNat 1) ∧
    ((final = [] ∧ (world.kill [] .sigterm = .refused ∨ FoundEnded world (.kill .sigterm :: asked))) ∨
      final.head? = some (.kill .sigkill))

/-- A child that was found ended in its grace period. -/
theorem Escalates.found {pid : Option Int} {grace : UInt32} {status : Int}
    (h : Returns world (rounds (max grace.toNat 1)) [.kill .sigterm] (calls, some (.exited status))) :
    Escalates world pid grace (calls, some true) := by
  obtain ⟨made, result, hrun, bounded, polls, ended⟩ := h
  obtain ⟨rfl, hresult⟩ := Prod.mk.inj hrun
  refine ⟨⟨true, rfl⟩, ?_, ?_, .inr ⟨made, [], ?_, polls, .inl ⟨rfl, .inr (ended status ?_)⟩⟩⟩
  · rw [List.singleton_append, List.forall_mem_cons]
    exact ⟨trivial, bounded⟩
  · rw [List.singleton_append, List.count_cons_of_ne (by decide)]
    omega
  · rw [List.append_nil, List.singleton_append]
  · exact (Option.some.inj hresult).symm

/-- A child that is killed when its grace period is over, and waited for if the signal went through. -/
theorem Escalates.killing {pid : Option Int} {grace : UInt32} {result : WaitResult} {final : List Call} {answer : Bool}
    (h : Returns world (rounds (max grace.toNat 1)) [.kill .sigterm] (calls, some result))
    (bounded' : ∀ call ∈ final, call.Bounded) (polls' : final.count (.waitpid true) ≤ rounds 1000) :
    Escalates world pid grace (calls ++ .kill .sigkill :: final, some answer) := by
  obtain ⟨made, result', hrun, bounded, polls, -⟩ := h
  obtain ⟨rfl, -⟩ := Prod.mk.inj hrun
  refine ⟨⟨answer, rfl⟩, ?_, ?_, .inr ⟨made, .kill .sigkill :: final, rfl, polls, .inr rfl⟩⟩
  · rw [List.forall_mem_append, List.singleton_append, List.forall_mem_cons, List.forall_mem_cons]
    exact ⟨⟨trivial, bounded⟩, trivial, bounded'⟩
  · rw [List.count_append, List.singleton_append, List.count_cons_of_ne (by decide), List.count_cons_of_ne (by decide)]
    omega

/-- The final wait of a kill. -/
theorem Escalates.waiting {pid : Option Int} {grace : UInt32} {result : WaitResult} {final : Run WaitResult}
    (h : Returns world (rounds (max grace.toNat 1)) [.kill .sigterm] (calls, some result))
    (last : Returns world (rounds 1000) (calls ++ [.kill .sigkill]) final) (answer : WaitResult → Bool) :
    Escalates world pid grace (final.1, final.2.map answer) := by
  obtain ⟨made, result', rfl, bounded, polls, -⟩ := last
  have whole : calls ++ [.kill .sigkill] ++ made = calls ++ .kill .sigkill :: made := by
    rw [List.append_assoc, List.singleton_append]
  rw [Option.map_some, whole]
  exact .killing h bounded polls

theorem Escalates.noProcess {pid : Option Int} {grace : UInt32} (h : ∀ p ∈ pid, p < 0) :
    Escalates world pid grace ([], some false) :=
  ⟨⟨false, rfl⟩, by simp, by simp, .inl h⟩

theorem Escalates.refused {pid : Option Int} {grace : UInt32} (h : world.kill [] .sigterm = .refused) :
    Escalates world pid grace ([.kill .sigterm], some false) := by
  refine ⟨⟨false, rfl⟩, ?_, by simp, .inr ⟨[], [], rfl, by simp, .inl ⟨rfl, .inl h⟩⟩⟩
  rw [List.forall_mem_singleton]
  trivial

theorem Linux.kill_escalates {pid : Int} {grace : UInt32} (process : ¬ pid < 0)
    (sent : world.kill [] .sigterm ≠ .refused) (positive : grace ≠ 0) :
    Escalates world (some pid) grace (Linux.kill world (some pid) grace) := by
  have first : Returns world (rounds (max grace.toNat 1)) [.kill .sigterm] (Linux.wait world grace [.kill .sigterm]) :=
    (Linux.wait_returns positive).mono (by simp only [rounds]; omega)
  rw [Linux.kill, if_neg process, if_neg sent]
  generalize Linux.wait world grace [.kill .sigterm] = run at first ⊢
  obtain ⟨calls, result⟩ := run
  have last : Returns world (rounds 1000) (calls ++ [.kill .sigkill])
      (Linux.wait world 1000 (calls ++ [.kill .sigkill])) := Linux.wait_returns (by decide)
  cases result with
  | none =>
    obtain ⟨made, result, hrun, -⟩ := first
    cases (Prod.mk.inj hrun).2
  | some result =>
    cases result with
    | exited status => exact .found first
    | timeout => exact .waiting first last _
    | error => exact .waiting first last _

theorem Mac.kill_escalates {pid : Int} {grace : UInt32} (process : ¬ pid < 0)
    (sent : world.kill [] .sigterm ≠ .refused) :
    Escalates world (some pid) grace (Mac.kill world (some pid) grace) := by
  have first : Returns world (rounds (max grace.toNat 1)) [.kill .sigterm]
      (Mac.wait world (if grace = 0 then 1 else grace) [.kill .sigterm]) := by
    by_cases zero : grace = 0
    · rw [if_pos zero]
      refine (Mac.wait_returns (by decide)).mono ?_
      have one : (1 : UInt32).toNat = 1 := rfl
      simp only [rounds, one]
      omega
    · rw [if_neg zero]
      exact (Mac.wait_returns zero).mono (by simp only [rounds]; omega)
  rw [Mac.kill, if_neg process, if_neg sent]
  generalize Mac.wait world (if grace = 0 then 1 else grace) [.kill .sigterm] = run at first ⊢
  obtain ⟨calls, result⟩ := run
  have last : Returns world (rounds 1000) (calls ++ [.kill .sigkill])
      (Mac.wait world 1000 (calls ++ [.kill .sigkill])) := Mac.wait_returns (by decide)
  cases result with
  | none =>
    obtain ⟨made, result, hrun, -⟩ := first
    cases (Prod.mk.inj hrun).2
  | some result =>
    by_cases killed : world.kill calls .sigkill = .refused
    · cases result with
      | exited status => exact .found first
      | timeout =>
        simp only [if_pos killed]
        exact .killing first (by simp) (by simp)
      | error =>
        simp only [if_pos killed]
        exact .killing first (by simp) (by simp)
    · cases result with
      | exited status => exact .found first
      | timeout =>
        simp only [if_neg killed]
        exact .waiting first last _
      | error =>
        simp only [if_neg killed]
        exact .waiting first last _

/-- The condition: the grace period is not zero, or there is no process to wait for. -/
def Graceful (platform : Platform) (world : World) (pid : Option Int) (grace : UInt32) : Prop :=
  platform = .macos ∨ grace ≠ 0 ∨ (∀ p ∈ pid, p < 0) ∨ world.kill [] .sigterm = .refused

/-- A kill escalates in time if and only if it is graceful. -/
theorem kill_escalates_iff (platform : Platform) (world : World) (pid : Option Int) (grace : UInt32) :
    Escalates world pid grace (supraSandboxKill platform world pid grace) ↔ Graceful platform world pid grace := by
  cases pid with
  | none =>
    have none_neg : ∀ p ∈ (none : Option Int), p < 0 := by simp
    have run : supraSandboxKill platform world none grace = ([], some false) := by cases platform <;> rfl
    rw [run]
    exact ⟨fun _ => .inr (.inr (.inl none_neg)), fun _ => .noProcess none_neg⟩
  | some pid =>
    by_cases negative : pid < 0
    · have neg : ∀ p ∈ some pid, p < 0 := by
        rintro _ ⟨⟩
        exact negative
      have run : supraSandboxKill platform world (some pid) grace = ([], some false) := by
        cases platform with
        | linux => rw [supraSandboxKill, Linux.kill, if_pos negative]
        | macos => rw [supraSandboxKill, Mac.kill, if_pos negative]
      rw [run]
      exact ⟨fun _ => .inr (.inr (.inl neg)), fun _ => .noProcess neg⟩
    · by_cases refused : world.kill [] .sigterm = .refused
      · have run : supraSandboxKill platform world (some pid) grace = ([.kill .sigterm], some false) := by
          cases platform with
          | linux => rw [supraSandboxKill, Linux.kill, if_neg negative, if_pos refused]
          | macos => rw [supraSandboxKill, Mac.kill, if_neg negative, if_pos refused]
        rw [run]
        exact ⟨fun _ => .inr (.inr (.inr refused)), fun _ => .refused refused⟩
      · cases platform with
        | macos => exact ⟨fun _ => .inl rfl, fun _ => Mac.kill_escalates negative refused⟩
        | linux =>
          by_cases zero : grace = 0
          · subst zero
            constructor
            · intro escalates
              have blocking : Call.waitpid false ∈ (Linux.kill world (some pid) 0).1 :=
                (Linux.kill_blocks negative refused).subset (by simp)
              cases escalates.bounded _ blocking
            · rintro (macos | nonzero | neg | refused')
              · cases macos
              · exact absurd rfl nonzero
              · exact absurd (neg pid rfl) negative
              · exact absurd refused' refused
          · exact ⟨fun _ => .inr (.inl zero), fun _ => Linux.kill_escalates negative refused zero⟩

/-- A child that is there and does not heed the request to end. -/
def stubborn : World where
  kill _ _ := .sent
  poll _ := .running
  block _ := none

/-- The kill signal is never sent to it. -/
theorem kill_hangs : supraSandboxKill .linux stubborn (some 7) 0 = ([.kill .sigterm, .waitpid false], none) ∧
    ¬ Escalates stubborn (some 7) 0 (supraSandboxKill .linux stubborn (some 7) 0) := by
  have run : supraSandboxKill .linux stubborn (some 7) 0 = ([.kill .sigterm, .waitpid false], none) := rfl
  refine ⟨run, fun escalates => ?_⟩
  rw [run] at escalates
  obtain ⟨answer, returns⟩ := escalates.returns
  cases returns

end SupraHarness.Ffi.Process
