import Mathlib.Data.List.Basic
import SupraHarness.Guard.Layers
import SupraHarness.Lib.Results
import SupraHarness.Types.Lineage

/-!
# The descriptor audit

`/proc/self/fd` is walked once, and every descriptor that would survive an `exec`
without being allowed to is a leak. What cannot be read counts as open and inheritable;
a descriptor that closed during the walk is not there.
-/
namespace SupraHarness.Sandbox

/-- An I/O error: whether it is one of the kinds the audit tells apart, and its text. -/
inductive IoError where
  | notFound (text : String)
  | unsupported (text : String)
  | other (text : String)
  deriving DecidableEq, Repr

def IoError.text : IoError → String
  | .notFound text | .unsupported text | .other text => text

/-- What `fcntl(F_GETFD)` answers: the flag, `EBADF`, or another failure. -/
inductive FlagRead where
  | flag (cloexec : Bool)
  | badDescriptor
  | failed
  deriving DecidableEq, Repr

/-- One entry of the directory: its name as an `i32` where it is one, its link, its flag. -/
structure Entry where
  number : Option Int
  target : Except IoError String
  flag : FlagRead

/-- One descriptor the audit observed. -/
structure DescriptorRecord where
  fd : Int
  path : String
  cloexec : Bool
  deriving DecidableEq, Repr

/-- The path of an entry, unless the descriptor is gone. -/
def Entry.path (entry : Entry) : Option String :=
  match entry.target with
  | .ok target => some target
  | .error (.notFound _) => none
  | .error _ => some ""

/-- The flag of an entry, unless the descriptor is gone. -/
def Entry.cloexec (entry : Entry) : Option Bool :=
  match entry.flag with
  | .flag cloexec => some cloexec
  | .badDescriptor => none
  | .failed => some false

def Entry.record (entry : Entry) : Option DescriptorRecord := do
  let fd ← entry.number
  let path ← entry.path
  let cloexec ← entry.cloexec
  return ⟨fd, path, cloexec⟩

/-- The records of a walk; an entry that cannot be read ends it. -/
def records : List (Except IoError Entry) → Except IoError (List DescriptorRecord)
  | [] => .ok []
  | .error error :: _ => .error error
  | .ok entry :: rest => (records rest).map (entry.record.toList ++ ·)

/-- One record per open descriptor, by number. -/
def snapshot (directory : Except IoError (List (Except IoError Entry))) :
    Except IoError (List DescriptorRecord) :=
  match directory with
  | .error (.notFound _) =>
    .error (.unsupported "ProcfsAbsent: cannot enumerate host descriptors without /proc/self/fd")
  | .error error => .error error
  | .ok entries => (records entries).map (·.mergeSort fun a b => a.fd ≤ b.fd)

/-- Every descriptor above the standard streams that is inheritable and not allowed. -/
def findLeaks (records : List DescriptorRecord) (allow : String → Bool) : List DescriptorRecord :=
  records.filter fun record => 2 < record.fd && !record.cloexec && !allow record.path

/-- The descriptors the table holds open. -/
def Open (entries : List (Except IoError Entry)) (record : DescriptorRecord) : Prop :=
  ∃ entry, .ok entry ∈ entries ∧ entry.record = some record

theorem mem_records {entries : List (Except IoError Entry)} {found : List DescriptorRecord}
    (h : records entries = .ok found) (record : DescriptorRecord) :
    record ∈ found ↔ Open entries record := by
  induction entries generalizing found with
  | nil =>
    cases h
    simp [Open]
  | cons head rest ih =>
    cases head with
    | error error => simp [records] at h
    | ok entry =>
      cases hrest : records rest with
      | error error => simp [records, hrest, Except.map] at h
      | ok tail =>
        simp only [records, hrest, Except.map, Except.ok.injEq] at h
        subst h
        rw [List.mem_append, ih hrest, Option.mem_toList]
        simp [Open]

/-- The audit finds no leak exactly when every open descriptor above the streams closes or is allowed. -/
theorem findLeaks_eq_nil_iff {directory : Except IoError (List (Except IoError Entry))}
    {found : List DescriptorRecord} (h : snapshot directory = .ok found) (allow : String → Bool) :
    findLeaks found allow = [] ↔
      ∃ entries, directory = .ok entries ∧
        ∀ record, Open entries record → 2 < record.fd → record.cloexec = false → allow record.path := by
  match hdir : directory with
  | .error (.notFound _) => simp [snapshot] at h
  | .error (.unsupported _) => simp [snapshot] at h
  | .error (.other _) => simp [snapshot] at h
  | .ok entries =>
    cases hrecords : records entries with
    | error error => simp [snapshot, hrecords, Except.map] at h
    | ok unsorted =>
      simp only [snapshot, hrecords, Except.map, Except.ok.injEq] at h
      subst h
      simp only [findLeaks, List.filter_eq_nil_iff, List.mem_mergeSort, mem_records hrecords,
        Except.ok.injEq, exists_eq_left']
      simp [and_assoc]

end SupraHarness.Sandbox

/-!
## Choreographed spawn

The descriptor audit, the guard, the command, the native call, the process-tree count,
in that order. The request carries a mode and a reversibility, and no step reads them:
the permission gate that the module names as the third mandatory step is not there.
-/
namespace SupraHarness.Sandbox

open Types Ffi Guard Results

variable {Policy : Type}

inductive SandboxError where
  | authority (layers : Nat) (refusals : List Refusal)
  | consent (mode : Mode) (reversibility : Reversibility)
  | leakyDescriptor (fd : Int) (path : String)
  | unsupported (detail : String)
  | ffi (detail : String)
  deriving DecidableEq, Repr

/-- A built policy and the paths whose descriptors may cross an `exec`. -/
structure SandboxPolicy (Policy : Type) where
  inner : Policy
  allow : List (List UInt8)

/-- Borrowed descriptors for the standard streams; none is `/dev/null`. -/
structure Stdio where
  stdin : Option Int
  stdout : Option Int
  stderr : Option Int

/-- What the spawn needs from the caller. -/
structure SpawnRequest where
  argv : List Text
  env : List (Text × Text)
  workingDir : Option (List UInt8)
  reversibility : Reversibility
  mode : Mode
  marker : Option Text
  lineage : Option Lineage
  child : Option AgentId
  claimVote : Option (AgentId × AgentId)
  stdio : Stdio

/-- The children started, in total and in the current burst. -/
structure TreeBudget where
  total : UInt32
  burst : UInt32
  burstLimit : UInt32
  deriving DecidableEq, Repr

def TreeBudget.recordChild (tree : TreeBudget) : TreeBudget :=
  { tree with burst := tree.burst + 1, total := tree.total + 1 }

@[simp] theorem TreeBudget.recordChild_total (tree : TreeBudget) :
    tree.recordChild.total = tree.total + 1 := rfl

/-- What a spawn finds: the descriptor table, the guard, and the native call. A native call
either starts a process or says why it refused. -/
structure Host (Policy : Type) where
  descriptors : Except IoError (List (Except IoError Entry))
  guard : Guard.State
  native : Policy → Command → Except String Process

def mapFfi (error : Ffi.Error) : SandboxError := .ffi error.text

def mapIo : IoError → SandboxError
  | .unsupported text => .unsupported text
  | error => .ffi error.text

/-- The exact comparison of the allow list. -/
def SandboxPolicy.allows (policy : SandboxPolicy Policy) (path : String) : Bool :=
  policy.allow.any fun allowed => String.ofList (Str.fromUtf8Lossy allowed) = path

def auditDescriptors (host : Host Policy) (policy : SandboxPolicy Policy) : Except SandboxError Unit := do
  let records ← (snapshot host.descriptors).mapError mapIo
  match (findLeaks records policy.allows).head? with
  | some leak => throw (.leakyDescriptor leak.fd leak.path)
  | none => return ()

/-- What the guard is asked to judge. -/
def SpawnRequest.toGuard (request : SpawnRequest) : Guard.SpawnRequest where
  argv := request.argv
  marker := request.marker
  lineage := request.lineage
  child := request.child
  claimProposer := request.claimVote.map (·.1)
  voter := request.claimVote.map (·.2)

def checkGuard (host : Host Policy) (request : SpawnRequest) : Except SandboxError Unit :=
  match host.guard.identity with
  | none => .error (.authority 0 [.noIdentity "process identity is not established"])
  | some _ =>
    let refusals := judge host.guard request.toGuard
    if refusals = [] then .ok () else .error (.authority refusals.length refusals)

/-- The command handed to the native call. -/
def buildCommand (program : Text) (request : SpawnRequest) : Except Ffi.Error Command := do
  let command ← Command.new (Utf8.encode program)
  let command ← request.argv.tail.foldlM (fun command arg => command.arg (Utf8.encode arg)) command
  let command ← request.env.foldlM
    (fun command entry => command.setEnv (Utf8.encode entry.1) (Utf8.encode entry.2)) command
  let command ← match request.workingDir with
    | some dir => command.setWorkingDir dir
    | none => pure command
  return command.stdio (request.stdio.stdin.getD (-1)) (request.stdio.stdout.getD (-1))
    (request.stdio.stderr.getD (-1))

/-- Everything before the native call. -/
def prepare (host : Host Policy) (policy : SandboxPolicy Policy) (request : SpawnRequest) :
    Except SandboxError Command :=
  match request.argv.head? with
  | none => .error (.ffi "argv is empty; there is no program to spawn")
  | some program => do
    auditDescriptors host policy
    checkGuard host request
    (buildCommand program request).mapError mapFfi

/-- What a spawn did: the commands handed to the native call, the processes it started, its
result, and the tree. -/
structure Outcome where
  calls : List Command
  started : List Process
  result : Except SandboxError Process
  tree : TreeBudget

def spawn (host : Host Policy) (policy : SandboxPolicy Policy) (request : SpawnRequest)
    (tree : TreeBudget) : Outcome :=
  match prepare host policy request with
  | .error error => ⟨[], [], .error error, tree⟩
  | .ok command =>
    match host.native policy.inner command with
    | .error message => ⟨[command], [], .error (mapFfi (.refused message)), tree⟩
    | .ok process => ⟨[command], [process], .ok process, tree.recordChild⟩

/-- No open descriptor above the streams is inheritable outside the allow list. -/
def Clean (host : Host Policy) (policy : SandboxPolicy Policy) : Prop :=
  ∃ entries, host.descriptors = .ok entries ∧
    ∀ record, Open entries record → 2 < record.fd → record.cloexec = false → policy.allows record.path

/-- There is a program, the audit finds no leak, and the guard allows the request. -/
def Passes (host : Host Policy) (policy : SandboxPolicy Policy) (request : SpawnRequest) : Prop :=
  request.argv ≠ [] ∧ auditDescriptors host policy = .ok () ∧ checkGuard host request = .ok ()

/-- The promise of the module: three gates before the native call, and a tree that counts
exactly the processes started. -/
structure Gated (host : Host Policy) (policy : SandboxPolicy Policy) (request : SpawnRequest)
    (tree : TreeBudget) : Prop where
  reached : (spawn host policy request tree).calls ≠ [] →
    Clean host policy ∧ Allowed host.guard request.toGuard ∧
      request.mode.decide request.reversibility ≠ .refuse
  consent : Passes host policy request → request.mode.decide request.reversibility = .refuse →
    (spawn host policy request tree).result = .error (.consent request.mode request.reversibility)
  refused : ∀ error, (spawn host policy request tree).result = .error error →
    (spawn host policy request tree).started = [] ∧ (spawn host policy request tree).tree = tree
  counted : ∀ process, (spawn host policy request tree).result = .ok process →
    (spawn host policy request tree).started = [process] ∧
      (spawn host policy request tree).tree.total.toNat = tree.total.toNat + 1

section
variable {host : Host Policy} {policy : SandboxPolicy Policy} {request : SpawnRequest}

theorem auditDescriptors_clean (h : auditDescriptors host policy = .ok ()) : Clean host policy := by
  simp only [auditDescriptors] at h
  cases hsnapshot : snapshot host.descriptors with
  | error error => simp [hsnapshot, Except.mapError, bind, Except.bind] at h
  | ok found =>
    simp only [hsnapshot, Except.mapError, bind, Except.bind] at h
    apply (findLeaks_eq_nil_iff hsnapshot policy.allows).mp
    cases hleaks : findLeaks found policy.allows with
    | nil => rfl
    | cons leak rest => simp [hleaks, throw, throwThe, MonadExceptOf.throw] at h

theorem checkGuard_ok_iff :
    checkGuard host request = .ok () ↔ Allowed host.guard request.toGuard := by
  unfold checkGuard
  cases hidentity : host.guard.identity with
  | none =>
    refine iff_of_false (by simp) fun h => ?_
    have hready := h.ready
    simp [hidentity] at hready
  | some identity =>
    simp only [Allowed]
    split <;> simp_all

theorem prepare_ok_iff {command : Command} :
    prepare host policy request = .ok command ↔
      Passes host policy request ∧
        ∃ program, request.argv.head? = some program ∧ buildCommand program request = .ok command := by
  unfold prepare Passes
  cases hargv : request.argv with
  | nil => simp
  | cons program rest =>
    simp only [List.head?_cons, bind_eq_ok, ne_eq, reduceCtorEq, not_false_eq_true, true_and,
      Option.some.injEq, exists_eq_left']
    constructor
    · rintro ⟨⟨⟩, haudit, ⟨⟩, hguard, hbuild⟩
      refine ⟨⟨haudit, hguard⟩, ?_⟩
      cases hcommand : buildCommand program request with
      | error error => simp [hcommand, Except.mapError] at hbuild
      | ok built => simpa [hcommand, Except.mapError] using hbuild
    · rintro ⟨⟨haudit, hguard⟩, hbuild⟩
      exact ⟨(), haudit, (), hguard, by simp [hbuild, Except.mapError]⟩

variable {command : Command}

theorem spawn_of_error (tree : TreeBudget) {error : SandboxError}
    (h : prepare host policy request = .error error) :
    spawn host policy request tree = ⟨[], [], .error error, tree⟩ := by
  simp [spawn, h]

theorem spawn_of_refusal (tree : TreeBudget) {message : String}
    (h : prepare host policy request = .ok command)
    (hnative : host.native policy.inner command = .error message) :
    spawn host policy request tree = ⟨[command], [], .error (mapFfi (.refused message)), tree⟩ := by
  simp [spawn, h, hnative]

theorem spawn_of_start (tree : TreeBudget) {process : Process}
    (h : prepare host policy request = .ok command)
    (hnative : host.native policy.inner command = .ok process) :
    spawn host policy request tree = ⟨[command], [process], .ok process, tree.recordChild⟩ := by
  simp [spawn, h, hnative]

/-- The 32-bit count grows by one unless it is full. -/
theorem recordChild_total_toNat (tree : TreeBudget) :
    tree.recordChild.total.toNat = tree.total.toNat + 1 ↔ tree.total ≠ 0xFFFFFFFF := by
  have hlt := tree.total.toNat_lt
  rw [TreeBudget.recordChild_total, UInt32.toNat_add, ne_eq, ← UInt32.toNat_inj]
  simp only [UInt32.reduceToNat]
  omega

/-- No spawn ends in the consent error. -/
theorem prepare_ne_consent (mode : Mode) (reversibility : Reversibility) :
    prepare host policy request ≠ .error (.consent mode reversibility) := by
  intro h
  unfold prepare at h
  cases hargv : request.argv.head? with
  | none => simp [hargv] at h
  | some program =>
    simp only [hargv, bind_eq_error] at h
    rcases h with haudit | ⟨_, _, hguard | ⟨_, _, hbuild⟩⟩
    · simp only [auditDescriptors, bind_eq_error] at haudit
      rcases haudit with hsnapshot | ⟨found, _, hleak⟩
      · cases hread : snapshot host.descriptors with
        | error error => cases error <;> simp [hread, Except.mapError, mapIo] at hsnapshot
        | ok found => simp [hread, Except.mapError] at hsnapshot
      · split at hleak <;> simp [throw, throwThe, MonadExceptOf.throw, pure, Except.pure] at hleak
    · unfold checkGuard at hguard
      split at hguard
      · simp at hguard
      · simp only at hguard
        split at hguard <;> simp at hguard
    · cases hcommand : buildCommand program request <;> simp [hcommand, Except.mapError, mapFfi] at hbuild

end

/-- When the audit and the guard let a request through, the matrix is what decides whether the spawn
keeps its promise: it must not refuse, and a process that starts must still fit the count. -/
theorem spawn_gated_iff (host : Host Policy) (policy : SandboxPolicy Policy) (request : SpawnRequest)
    (tree : TreeBudget) :
    Gated host policy request tree ↔
      (Passes host policy request →
        request.mode.decide request.reversibility ≠ .refuse ∧
          ∀ program command process, request.argv.head? = some program →
            buildCommand program request = .ok command →
            host.native policy.inner command = .ok process → tree.total ≠ 0xFFFFFFFF) := by
  constructor
  · intro hgated hpasses
    constructor
    · intro hrefuse
      have hresult := hgated.consent hpasses hrefuse
      cases hprepare : prepare host policy request with
      | error error =>
        rw [spawn_of_error tree hprepare] at hresult
        simp only [Except.error.injEq] at hresult
        exact prepare_ne_consent _ _ (hresult ▸ hprepare)
      | ok command =>
        have hreached : (spawn host policy request tree).calls ≠ [] := by
          simp only [spawn, hprepare]
          split <;> simp
        exact (hgated.reached hreached).2.2 hrefuse
    · intro program command process hprogram hbuild hnative
      have hprepare := prepare_ok_iff.mpr ⟨hpasses, program, hprogram, hbuild⟩
      have hstart := spawn_of_start tree hprepare hnative
      have hcounted := (hgated.counted process (by rw [hstart])).2
      rw [hstart] at hcounted
      exact (recordChild_total_toNat tree).mp hcounted
  · intro hcondition
    cases hprepare : prepare host policy request with
    | error error =>
      have hspawn := spawn_of_error tree hprepare
      constructor
      · simp [hspawn]
      · intro hpasses hrefuse
        exact absurd hrefuse (hcondition hpasses).1
      · simp [hspawn]
      · simp [hspawn]
    | ok command =>
      obtain ⟨hpasses, program, hprogram, hbuild⟩ := prepare_ok_iff.mp hprepare
      obtain ⟨hmatrix, hroom⟩ := hcondition hpasses
      have hgates : Clean host policy ∧ Allowed host.guard request.toGuard ∧
          request.mode.decide request.reversibility ≠ .refuse :=
        ⟨auditDescriptors_clean hpasses.2.1, checkGuard_ok_iff.mp hpasses.2.2, hmatrix⟩
      cases hnative : host.native policy.inner command with
      | error message =>
        have hspawn := spawn_of_refusal tree hprepare hnative
        exact ⟨fun _ => hgates, fun _ hrefuse => absurd hrefuse hmatrix, by simp [hspawn],
          by simp [hspawn]⟩
      | ok process =>
        have hspawn := spawn_of_start tree hprepare hnative
        refine ⟨fun _ => hgates, fun _ hrefuse => absurd hrefuse hmatrix, by simp [hspawn], ?_⟩
        intro started hstarted
        simp only [hspawn, Except.ok.injEq] at hstarted ⊢
        subst hstarted
        exact ⟨rfl, (recordChild_total_toNat tree).mpr (hroom program command process hprogram hbuild hnative)⟩

/-- A host with no other descriptors whose guard knows itself, and a native call that starts. -/
def readyHost : Host Unit where
  descriptors := .ok []
  guard := {
    identity := some ⟨Utf8.encode "/usr/bin/supra".toList, ⟨1, 2⟩⟩
    key := some ⟨List.replicate 32 0, by simp⟩
    hmac := fun _ _ => List.replicate 32 0
    canonicalize := fun _ => none
    identify := fun _ => none }
  native := fun _ _ => .ok ⟨4242, .landlock⟩

/-- `rm` under a plan: irreversible, with a marker the guard accepts. -/
def plannedRemoval : SpawnRequest where
  argv := ["/bin/rm".toList, "notes".toList]
  env := []
  workingDir := none
  reversibility := .r3
  mode := .plan
  marker := some ("1:".toList ++ List.replicate 32 '0' ++ ':' :: List.replicate 64 '0')
  lineage := none
  child := none
  claimVote := none
  stdio := ⟨none, none, none⟩

/-- The matrix refuses the removal, and it is started all the same. -/
theorem plannedRemoval_started : ¬ Gated readyHost ⟨(), []⟩ plannedRemoval ⟨0, 0, 32⟩ := by
  intro hgated
  have hcalls : (spawn readyHost ⟨(), []⟩ plannedRemoval ⟨0, 0, 32⟩).calls.length = 1 := by
    decide +kernel
  have hreached : (spawn readyHost ⟨(), []⟩ plannedRemoval ⟨0, 0, 32⟩).calls ≠ [] := by
    intro hnil
    simp [hnil] at hcalls
  exact (hgated.reached hreached).2.2 rfl

end SupraHarness.Sandbox
