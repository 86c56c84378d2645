import SupraHarness.Ffi.Command

/-!
# The Linux spawn

The parent forks a child that sets itself up step by step and ends in `execve`. The only word the
parent has of it is one read of a report pipe that a successful `execve` closes: bytes are the
message of the step that failed, and end of file is taken for a program that runs.

The child is the forked process up to the fork for a PID namespace and the inner process after it.
The process between them gives up its end of the pipe at once and only relays a status, so what
becomes of it changes neither the pipe nor the program.
-/
namespace SupraHarness.Ffi.Linux

/-- A C string, or the bytes of one in a fixed buffer. -/
abbrev Text := List UInt8

def ascii (text : String) : Text := Utf8.encode text.toList

/-- `SUPRA_SANDBOX_ERROR_LEN`, the terminator included. -/
def errorLen : Nat := 256

/-- Copy a message into a fixed buffer. -/
def setError (message : Text) : Text := message.take (errorLen - 1)

def appendTruncated (dest tail : Text) : Text := (dest ++ tail).take (errorLen - 1)

/-- `message: strerror(err)` in a fixed buffer. -/
def setErrorErrno (strerror : Int → Text) (message : Text) (err : Int) : Text :=
  appendTruncated (appendTruncated (setError message) (ascii ": ")) (strerror err)

structure PathRule where
  path : Option Text
  access : UInt32
  deriving DecidableEq, Repr

/-- What the spawn reads of a policy. -/
structure Policy where
  paths : List PathRule
  network : UInt8
  allowedPorts : List UInt16
  isolateProcesses : UInt8
  isolateIpc : UInt8
  requiredTier : UInt8
  deriving DecidableEq, Repr

def netPorts : UInt8 := 1
def netFull : UInt8 := 2
def tierNone : UInt8 := 0
def tierLandlock : UInt8 := 2
def tierAppContainer : UInt8 := 4
def maxPaths : Nat := 64
def maxPorts : Nat := 16

/-- Read, write, execute and manage. -/
def knownAccess : UInt32 := 0b1111

def isAbsolute (path : Option Text) : Bool := (path.bind (·.head?)) = some '/'.toNat.toUInt8

def checkPaths : Nat → List PathRule → Except Text Unit
  | _, [] => .ok ()
  | i, rule :: rest =>
    let named (text : String) := ascii ("path rule " ++ toString i ++ text)
    if !isAbsolute rule.path then
      .error (setError (named " is not absolute: " ++ rule.path.getD (ascii "(null)")))
    else if rule.access = 0 then
      .error (setError (named " grants no access: " ++ rule.path.getD []))
    else if rule.access &&& ~~~knownAccess ≠ 0 then .error (setError (named " contains unknown access bits"))
    else checkPaths (i + 1) rest

def validatePolicy : Option Policy → Except Text Policy
  | none => .error (ascii "policy is null")
  | some policy => do
    if maxPaths < policy.paths.length then throw (ascii "path_count exceeds SUPRA_SANDBOX_MAX_PATHS")
    if maxPorts < policy.allowedPorts.length then throw (ascii "port_count exceeds SUPRA_SANDBOX_MAX_PORTS")
    if netFull < policy.network then throw (ascii "network is not a known policy")
    if 1 < policy.isolateProcesses ∨ 1 < policy.isolateIpc then
      throw (ascii "isolation flags must be zero or one")
    checkPaths 0 policy.paths
    if policy.network = netPorts ∧ policy.allowedPorts = [] then
      throw (ascii "NET_PORTS selected but no ports allowed")
    if tierAppContainer < policy.requiredTier then throw (ascii "required_tier is not a known tier")
    return policy

/-- What the probe reports of the platform. -/
structure Capabilities where
  tier : UInt8
  portGranularNetwork : Bool
  detail : Text
  deriving DecidableEq, Repr

inductive Stream where
  | stdin | stdout | stderr
  deriving DecidableEq, Repr

/-- A setup step of the child whose failure ends it, in the order of the source. The deny of
`setgroups` and the resource limits are best-effort and are no steps. -/
inductive Step where
  | setsid
  | unshare
  | uidMap
  | gidMap
  | innerFork
  | redirect (stream : Stream)
  | chdir
  | landlock
  | execve
  deriving DecidableEq, Repr

/-- How a step ends: done, failed with an `errno`, or never, because the process was killed. -/
inductive StepOutcome where
  | done
  | failed (err : Int)
  | killed
  deriving DecidableEq, Repr

/-- The steps of a spawn. -/
def plan (policy : Policy) (command : Command) (capabilities : Capabilities) : List Step :=
  [.setsid, .unshare, .uidMap, .gidMap]
    ++ (if policy.isolateProcesses ≠ 0 then [.innerFork] else [])
    ++ [.redirect .stdin, .redirect .stdout, .redirect .stderr]
    ++ (if command.workingDir.isSome then [.chdir] else [])
    ++ (if tierLandlock ≤ capabilities.tier then [.landlock] else [])
    ++ [.execve]

/-- The outcomes the environment decides. A Landlock failure explains itself. -/
structure Environment where
  capabilities : Capabilities
  pipe : Option Int
  fork : Option Int
  outer : Int
  step : Step → StepOutcome
  landlockError : Text
  landlockExplains : landlockError ≠ []
  read : Option Int
  waitInterrupted : Bool
  strerror : Int → Text

/-- The words a step is reported under. -/
def Step.label : Step → String
  | .setsid => "setsid"
  | .unshare => "unshare"
  | .uidMap => "write /proc/self/uid_map"
  | .gidMap => "write /proc/self/gid_map"
  | .innerFork => "fork for PID namespace"
  | .redirect .stdin => "redirect stdin"
  | .redirect .stdout => "redirect stdout"
  | .redirect .stderr => "redirect stderr"
  | .chdir => "chdir"
  | .landlock => "landlock"
  | .execve => "execve"

/-- What `failChild` writes into the pipe. -/
def failChild (env : Environment) (step : Step) (err : Int) : Text :=
  if step = .landlock then setError env.landlockError
  else if err ≠ 0 then setErrorErrno env.strerror (ascii step.label) err
  else setError (ascii step.label)

/-- How the child ends: it became the program, it wrote a report and exited, or it was killed. -/
inductive Ended where
  | executed
  | reported (message : Text)
  | silent
  deriving DecidableEq, Repr

def runChild (env : Environment) : List Step → Ended
  | [] => .executed
  | step :: rest =>
    match env.step step with
    | .done => runChild env rest
    | .failed err => .reported (failChild env step err)
    | .killed => .silent

/-- What the parent's read returns: an error, or what the child left in the pipe. -/
def readReport (env : Environment) (child : Ended) : Except Int Text :=
  match env.read with
  | some err => .error err
  | none =>
    match child with
    | .reported message => .ok message
    | .executed | .silent => .ok []

/-- A spawn as its caller and its host see it: the return value and the record filled in, how the
child ended if there is one, and whether it was reaped. -/
structure Outcome where
  returned : Bool
  pid : Int
  tier : UInt8
  error : Text
  child : Option Ended
  reaped : Bool
  deriving DecidableEq, Repr

/-- A refusal before any process exists. -/
def refuse (error : Text) : Outcome := ⟨false, -1, tierNone, error, none, false⟩

/-- The checks before the fork. -/
def precheck (policy : Option Policy) (command : Option Command) (env : Environment) :
    Except Text (Policy × Command) := do
  let some command := command | throw (ascii "command, program, and argv are required")
  let policy ← validatePolicy policy
  let capabilities := env.capabilities
  if capabilities.tier = tierNone then throw (setError capabilities.detail)
  if policy.requiredTier ≠ 0 ∧ capabilities.tier < policy.requiredTier then
    throw (appendTruncated (ascii "policy requires tier above available: ") capabilities.detail)
  if policy.paths ≠ [] ∧ capabilities.tier < tierLandlock then
    throw (appendTruncated
      (ascii "policy specifies filesystem rules but this platform cannot enforce them: ")
      capabilities.detail)
  if policy.network = netPorts ∧ ¬ capabilities.portGranularNetwork then
    throw (appendTruncated
      (ascii "policy requests per-port network but this platform cannot enforce it: ")
      capabilities.detail)
  match env.pipe with
  | some err => throw (setErrorErrno env.strerror (ascii "pipe2") err)
  | none => pure ()
  match env.fork with
  | some err => throw (setErrorErrno env.strerror (ascii "fork") err)
  | none => pure ()
  return (policy, command)

def supraSandboxSpawn (policy : Option Policy) (command : Option Command) (env : Environment) : Outcome :=
  match precheck policy command env with
  | .error error => refuse error
  | .ok (policy, command) =>
    let child := runChild env (plan policy command env.capabilities)
    match readReport env child with
    | .ok (byte :: message) =>
      ⟨false, -1, tierNone, setError (byte :: message), some child, !env.waitInterrupted⟩
    | .ok [] | .error _ => ⟨true, env.outer, env.capabilities.tier, [], some child, false⟩

/-- The verdict a caller can rely on: success means that the program was executed, and a program
that was not leaves a failure and no zombie. -/
structure Honest (outcome : Outcome) : Prop where
  started : outcome.returned = true → outcome.child = some .executed
  failed : outcome.child ≠ some .executed →
    outcome.returned = false ∧ (outcome.child ≠ none → outcome.reaped = true)

/-- The first step that is not done fails, rather than being cut short by a kill. -/
def FailsAt (env : Environment) (steps : List Step) : Prop :=
  ∃ before step after err, steps = before ++ step :: after ∧
    (∀ earlier ∈ before, env.step earlier = .done) ∧ env.step step = .failed err

theorem runChild_eq_executed {env : Environment} {steps : List Step} :
    runChild env steps = .executed ↔ ∀ step ∈ steps, env.step step = .done := by
  induction steps with
  | nil => simp [runChild]
  | cons step rest ih =>
    simp only [runChild, List.forall_mem_cons]
    cases hstep : env.step step with
    | done => simp [ih]
    | failed err => simp
    | killed => simp

theorem exists_reported {env : Environment} {steps : List Step} :
    (∃ message, runChild env steps = .reported message) ↔ FailsAt env steps := by
  induction steps with
  | nil => simp [runChild, FailsAt]
  | cons head rest ih =>
    simp only [runChild]
    constructor
    · intro h
      cases hstep : env.step head with
      | done =>
        simp only [hstep] at h
        obtain ⟨before, step, after, err, rfl, hbefore, hfailed⟩ := ih.mp h
        refine ⟨head :: before, step, after, err, rfl, ?_, hfailed⟩
        simpa [hstep] using hbefore
      | failed err => exact ⟨[], head, rest, err, rfl, by simp, hstep⟩
      | killed => simp [hstep] at h
    · rintro ⟨before, step, after, err, hsplit, hbefore, hfailed⟩
      cases before with
      | nil =>
        simp only [List.nil_append, List.cons.injEq] at hsplit
        simp [hsplit.1, hfailed]
      | cons first before =>
        simp only [List.cons_append, List.cons.injEq] at hsplit
        obtain ⟨rfl, rfl⟩ := hsplit
        simp only [hbefore head (by simp)]
        exact ih.mpr ⟨before, step, after, err, rfl, fun s hs => hbefore s (by simp [hs]), hfailed⟩

theorem setError_ne_nil {message : Text} (h : message ≠ []) : setError message ≠ [] := by
  cases message with
  | nil => exact absurd rfl h
  | cons byte rest => simp [setError, errorLen]

theorem setErrorErrno_ne_nil (strerror : Int → Text) {message : Text} (h : message ≠ []) (err : Int) :
    setErrorErrno strerror message err ≠ [] := by
  cases message with
  | nil => exact absurd rfl h
  | cons byte rest => simp [setErrorErrno, appendTruncated, setError, errorLen]

/-- Every report has words in it, so it is never taken for the end of the file. -/
theorem failChild_ne_nil (env : Environment) (step : Step) (err : Int) : failChild env step err ≠ [] := by
  have hlabel : ascii step.label ≠ [] := by
    rcases step with _ | _ | _ | _ | _ | (_ | _ | _) | _ | _ | _ <;> decide
  unfold failChild
  split
  · exact setError_ne_nil env.landlockExplains
  · split
    · exact setErrorErrno_ne_nil env.strerror hlabel err
    · exact setError_ne_nil hlabel

theorem runChild_reported_ne_nil {env : Environment} {steps : List Step} {message : Text}
    (h : runChild env steps = .reported message) : message ≠ [] := by
  induction steps with
  | nil => simp [runChild] at h
  | cons step rest ih =>
    simp only [runChild] at h
    cases hstep : env.step step with
    | done =>
      simp only [hstep] at h
      exact ih h
    | failed err =>
      simp only [hstep, Ended.reported.injEq] at h
      exact h ▸ failChild_ne_nil env step err
    | killed => simp [hstep] at h

/-- The report of a child that failed reaches a parent whose read is not disturbed. -/
theorem readReport_reported {env : Environment} {steps : List Step} {message : Text}
    (hchild : runChild env steps = .reported message) (hread : env.read = none) :
    ∃ byte rest, readReport env (runChild env steps) = .ok (byte :: rest) := by
  obtain ⟨byte, rest, rfl⟩ := List.exists_cons_of_ne_nil (runChild_reported_ne_nil hchild)
  exact ⟨byte, rest, by simp [readReport, hchild, hread]⟩

/-- Bytes come only from a report. -/
theorem reported_of_readReport {env : Environment} {child : Ended} {byte : UInt8} {rest : Text}
    (h : readReport env child = .ok (byte :: rest)) :
    env.read = none ∧ child = .reported (byte :: rest) := by
  unfold readReport at h
  cases hread : env.read with
  | some err => simp [hread] at h
  | none => cases child <;> simp_all

/-- Once there is a child, the verdict is right exactly when every step was done, or a step failed
before any kill and both the read of its report and the wait for the child went through. -/
theorem supraSandboxSpawn_honest_iff (policy : Option Policy) (command : Option Command)
    (env : Environment) :
    Honest (supraSandboxSpawn policy command env) ↔
      ∀ checked given, precheck policy command env = .ok (checked, given) →
        (∀ step ∈ plan checked given env.capabilities, env.step step = .done) ∨
          (FailsAt env (plan checked given env.capabilities) ∧ env.read = none ∧
            env.waitInterrupted = false) := by
  unfold supraSandboxSpawn
  cases hcheck : precheck policy command env with
  | error error =>
    refine iff_of_true ⟨by simp [refuse], by simp [refuse]⟩ ?_
    intro checked given h
    cases h
  | ok passed =>
    obtain ⟨checked, given⟩ := passed
    have hforall (P : Policy → Command → Prop) :
        (∀ policy command, (Except.ok (checked, given) : Except Text _) = .ok (policy, command) →
          P policy command) ↔ P checked given := by
      constructor
      · intro h
        exact h checked given rfl
      · rintro h policy command ⟨⟩
        exact h
    simp only [hforall]
    generalize hsteps : plan checked given env.capabilities = steps
    constructor
    · intro honest
      by_cases hdone : runChild env steps = .executed
      · exact .inl (runChild_eq_executed.mp hdone)
      · right
        -- a verdict of success would be about a program that never ran
        split at honest
        next byte rest hread =>
          obtain ⟨hquiet, hreported⟩ := reported_of_readReport hread
          have hreaped := (honest.failed (by simpa using hdone)).2 (by simp)
          exact ⟨exists_reported.mp ⟨_, hreported⟩, hquiet, by simpa using hreaped⟩
        next hread => exact absurd (honest.started rfl) (by simpa using hdone)
        next err hread => exact absurd (honest.started rfl) (by simpa using hdone)
    · rintro (hdone | ⟨hfails, hquiet, hwait⟩)
      · have hexecuted := runChild_eq_executed.mpr hdone
        split
        next byte rest hread => simp [hexecuted, readReport] at hread; split at hread <;> simp at hread
        next => exact ⟨fun _ => by rw [hexecuted], fun h => absurd (by rw [hexecuted]) h⟩
        next => exact ⟨fun _ => by rw [hexecuted], fun h => absurd (by rw [hexecuted]) h⟩
      · obtain ⟨message, hreported⟩ := exists_reported.mpr hfails
        obtain ⟨byte, rest, hread⟩ := readReport_reported hreported hquiet
        rw [hread]
        exact ⟨by simp, fun _ => ⟨rfl, fun _ => by simp [hwait]⟩⟩

/-- A host with namespaces only, where the program does not exist and a signal arrives while the
parent reads. -/
def interrupted : Environment where
  capabilities := ⟨1, false, []⟩
  pipe := none
  fork := none
  outer := 4242
  step := fun step => if step = .execve then .failed 2 else .done
  landlockError := ascii "landlock"
  landlockExplains := by decide
  read := some 4
  waitInterrupted := false
  strerror := fun _ => ascii "error"

/-- A command of one word. -/
def lone : Command where
  program := ⟨ascii "/bin/absent", by decide⟩
  args := [⟨ascii "/bin/absent", by decide⟩]
  env := []
  workingDir := none
  stdinFd := -1
  stdoutFd := -1
  stderrFd := -1

/-- The interrupted read passes for the end of the file, and the absent program for a running one. -/
theorem interrupted_started :
    ¬ Honest (supraSandboxSpawn (some ⟨[], netFull, [], 0, 0, 0⟩) (some lone) interrupted) := by
  intro honest
  have hstarted := honest.started (by decide +kernel)
  have hchild : (supraSandboxSpawn (some ⟨[], netFull, [], 0, 0, 0⟩) (some lone) interrupted).child
      ≠ some .executed := by decide +kernel
  exact hchild hstarted

end SupraHarness.Ffi.Linux
