import SupraHarness.Lib.Run
import SupraHarness.Session.Store

/-!
# Clients of one session file

Any number of clients load the checkpoint, change it and publish it with the revision they loaded as
the expected one, while legacy saves come in between. Each save is one step under the file lock. A
file that has been changed has advanced, except where absence and revision zero are confused and
where a legacy save replaces a legacy file.
-/
namespace SupraHarness.Session

open SupraHarness.Types Run

/-- What a client has loaded: the revision, or that there was no file, and the state it has made of it. -/
structure Client (V : Type) where
  seen : Option Nat
  checkpoint : SessionCheckpoint V

structure State (V : Type) where
  file : Option (Document V)
  clients : Nat → Option (Client V)

inductive Action (V : Type) where
  /-- Load the checkpoint, with one of the client's own in hand where there is none. -/
  | load (client : Nat) (fresh : SessionCheckpoint V)
  | edit (client : Nat) (op : SessionCheckpoint.Edit V)
  | publish (client : Nat) (outcome : Publication)
  | legacy (turns : List (TurnId × String)) (outcome : Publication)

section Step

variable {V : Type} [Payload V] [DecidableEq V] (session : SessionId)

def State.put (s : State V) (client : Nat) (c : Option (Client V)) : State V :=
  { s with clients := Function.update s.clients client c }

/-- The file after a save by a client, and what the client is told. -/
def publication (file : Option (Document V)) (c : Client V) (outcome : Publication) :
    Option (Document V) × Except SessionError Unit :=
  saveCheckpoint file c.checkpoint (some (c.seen.getD 0)) outcome

def step (s : State V) : Action V → Option (State V)
  | .load client fresh =>
    if fresh.revision = 0 ∧ fresh.session = session then
      match loadCheckpoint s.file session with
      | .error _ => some (s.put client none)
      | .ok none => some (s.put client (some ⟨none, fresh⟩))
      | .ok (some checkpoint) => some (s.put client (some ⟨some checkpoint.revision, checkpoint⟩))
    else none
  | .edit client op =>
    match s.clients client with
    | none => none
    | some c =>
      match c.checkpoint.edit op with
      | .error _ => some s
      | .ok checkpoint => some (s.put client (some ⟨c.seen, checkpoint⟩))
  | .publish client outcome =>
    match s.clients client with
    | none => none
    | some c => some { s with file := (publication s.file c outcome).1 }
  | .legacy turns outcome => some { s with file := (save s.file session turns outcome).1 }

/-- The client's save is answered without an error. -/
def Publishes (s : State V) (client : Nat) (outcome : Publication) : Prop :=
  ∃ c, s.clients client = some c ∧ (publication s.file c outcome).2 = .ok ()

/-- The condition on the steps: a legacy save that would replace a legacy file extends its turns, and
a client that found no file does not publish an advanced checkpoint over a file at revision zero. -/
def Respects (s : State V) : Action V → Prop
  | .legacy turns outcome =>
    validateLegacyTurns session turns = .ok () → outcome ≠ .failsBefore →
      ∀ stored old, s.file = some (.legacy stored old) → old <+: turns
  | .publish client outcome =>
    ∀ c, s.clients client = some c → c.seen = none → c.checkpoint.validate = .ok () → outcome ≠ .failsBefore →
      rank s.file = 1 → c.checkpoint.revision = 0
  | _ => True

end Step

/-! ## What a save does to the file -/

section Save

variable {V : Type} [Payload V]

/-- A file is followed by itself or by one that has advanced and keeps its turns. -/
def Follows (file file' : Option (Document V)) : Prop :=
  file' = file ∨ rank file < rank file' ∧ transcriptOf file <+: transcriptOf file'

omit [Payload V] in
theorem merge_follows {existing candidate : SessionCheckpoint V} {turns : List (TurnId × String)}
    (h : mergeLegacyProjection existing turns = .ok candidate) :
    candidate = existing ∨ existing.revision < candidate.revision ∧ existing.transcript <+: candidate.transcript := by
  rw [mergeLegacyProjection] at h
  split at h
  · contradiction
  · split at h
    · contradiction
    · cases hextra : turns.drop existing.turns.length with
      | nil =>
        rw [hextra] at h
        exact .inl (Except.ok.inj h).symm
      | cons turn extra =>
        rw [hextra] at h
        obtain ⟨htranscript, hrevision⟩ := SessionCheckpoint.pushAll_eq_ok h
        rw [htranscript, hrevision, List.length_cons]
        exact .inr ⟨by omega, List.prefix_append _ _⟩

omit [Payload V] in
theorem publish_follows {file : Option (Document V)} {document : Document V} (outcome : Publication)
    (h : outcome ≠ .failsBefore → Follows file (some document)) :
    Follows file (publish file document outcome).1 := by
  rcases publish_file file document outcome with ⟨hfile, _⟩ | ⟨hfile, houtcome⟩
  · exact .inl hfile
  · rw [hfile]
    exact h houtcome

/-- A file that a legacy save would replace is absent or a legacy file of the session. -/
theorem readVersioned_none {file : Option (Document V)} {session : SessionId}
    (h : readVersionedCheckpointIfPresent file session = .ok none) :
    file = none ∨ ∃ old, file = some (.legacy session old) := by
  cases file with
  | none => exact .inl rfl
  | some document =>
    cases document with
    | garbage => cases h
    | legacy stored old =>
      simp only [readVersionedCheckpointIfPresent] at h
      split at h
      · contradiction
      · by_cases hstored : stored = session
        · exact .inr ⟨old, by rw [hstored]⟩
        · rw [if_pos hstored] at h
          contradiction
    | envelope format version checkpoint =>
      simp only [readVersionedCheckpointIfPresent] at h
      rcases readCheckpointIfPresent_eq_ok h with ⟨hnone, _⟩ | ⟨_, hsome, _⟩
      · contradiction
      · contradiction

theorem readVersioned_some {file : Option (Document V)} {session : SessionId} {existing : SessionCheckpoint V}
    (h : readVersionedCheckpointIfPresent file session = .ok (some existing)) :
    existing.revision + 1 = rank file ∧ existing.transcript = transcriptOf file := by
  have hread : readCheckpointIfPresent file session = .ok (some existing) := by
    cases file with
    | none => exact h
    | some document =>
      cases document with
      | legacy stored old =>
        simp only [readVersionedCheckpointIfPresent] at h
        split at h
        · contradiction
        · split at h <;> cases h
      | garbage => exact h
      | envelope format version checkpoint => exact h
  rcases readCheckpointIfPresent_eq_ok hread with ⟨_, hnone⟩ | ⟨checkpoint, hsome, hrest⟩
  · contradiction
  · cases hsome
    exact hrest

omit [Payload V] in
theorem legacy_follows {session : SessionId} {old turns : List (TurnId × String)} (h : old <+: turns) :
    Follows (some (.legacy session old : Document V)) (some (.legacy session turns)) := by
  rcases Nat.lt_or_ge old.length turns.length with hlt | hge
  · exact .inr ⟨Nat.succ_lt_succ hlt, h⟩
  · exact .inl (by rw [h.eq_of_length_le hge])

theorem save_follows [DecidableEq V] {file : Option (Document V)} {session : SessionId}
    {turns : List (TurnId × String)} {outcome : Publication}
    (h : validateLegacyTurns session turns = .ok () → outcome ≠ .failsBefore →
      ∀ stored old, file = some (.legacy stored old) → old <+: turns) :
    Follows file (save file session turns outcome).1 := by
  rw [save]
  cases hvalid : validateLegacyTurns session turns with
  | error error => exact .inl rfl
  | ok valid =>
    cases hread : readVersionedCheckpointIfPresent file session with
    | error error => exact .inl rfl
    | ok read =>
      cases read with
      | none =>
        apply publish_follows
        intro houtcome
        rcases readVersioned_none hread with rfl | ⟨old, rfl⟩
        · exact .inr ⟨Nat.succ_pos _, List.nil_prefix⟩
        · exact legacy_follows (h hvalid houtcome session old rfl)
      | some existing =>
        obtain ⟨hrank, htranscript⟩ := readVersioned_some hread
        simp only
        cases hmerge : mergeLegacyProjection existing turns with
        | error error => exact .inl rfl
        | ok candidate =>
          simp only
          by_cases hsame : candidate = existing
          · rw [if_pos hsame]
            exact .inl rfl
          · rw [if_neg hsame]
            apply publish_follows
            intro _
            obtain ⟨hrevision, hprefix⟩ := (merge_follows hmerge).resolve_left hsame
            refine .inr ⟨?_, ?_⟩
            · rw [← hrank, rank_checkpointDocument]
              omega
            · rw [← htranscript]
              exact hprefix

/-- A checkpoint that reaches the file met the expected revision and goes beyond the one on disk. -/
theorem saveCheckpoint_cases (file : Option (Document V)) (checkpoint : SessionCheckpoint V) (expected : Nat)
    (outcome : Publication) :
    ((saveCheckpoint file checkpoint (some expected) outcome).1 = file ∧
      (saveCheckpoint file checkpoint (some expected) outcome).2 ≠ .ok ()) ∨
    (saveCheckpoint file checkpoint (some expected) outcome).1 = some (checkpointDocument checkpoint) ∧
      checkpoint.validate = .ok () ∧ outcome ≠ .failsBefore ∧
      (file = none ∧ expected = 0 ∨ expected + 1 = rank file ∧ expected < checkpoint.revision) := by
  rw [saveCheckpoint]
  cases hvalid : checkpoint.validate with
  | error error => exact .inl ⟨rfl, nofun⟩
  | ok valid =>
    cases hcurrent : currentRevision file checkpoint.session with
    | error error => exact .inl ⟨rfl, nofun⟩
    | ok found =>
      simp only [Option.any_some, decide_eq_true_eq]
      by_cases hobserved : found.getD 0 = expected
      · rw [if_neg (not_not.mpr hobserved)]
        by_cases hstale : (found.any fun current => decide (checkpoint.revision ≤ current)) = true
        · rw [if_pos hstale]
          exact .inl ⟨rfl, nofun⟩
        · rw [if_neg hstale]
          have hplace : file = none ∧ expected = 0 ∨ expected + 1 = rank file ∧ expected < checkpoint.revision := by
            rcases currentRevision_eq_ok hcurrent with ⟨hfile, rfl⟩ | ⟨revision, rfl, hrank⟩
            · exact .inl ⟨hfile, hobserved.symm⟩
            · obtain rfl : revision = expected := hobserved
              refine .inr ⟨hrank, ?_⟩
              rw [Option.any_some, decide_eq_true_eq] at hstale
              exact Nat.lt_of_not_le hstale
          cases outcome with
          | published => exact .inr ⟨rfl, trivial, nofun, hplace⟩
          | failsBefore => exact .inl ⟨rfl, nofun⟩
          | failsAfter => exact .inr ⟨rfl, trivial, nofun, hplace⟩
      · rw [if_pos hobserved]
        exact .inl ⟨rfl, nofun⟩

end Save

/-! ## One step -/

section Runs

variable {V : Type} [Payload V] [DecidableEq V] {session : SessionId} {s s' : State V}

/-- What the client had in hand when it loaded: its place among the ranks. -/
def Client.place (c : Client V) : Nat := c.seen.elim 0 (· + 1)

/-- No client has seen a later file than the one on disk, and a client that has seen the one on disk
has kept its turns. -/
def Inv (s : State V) : Prop :=
  ∀ client c, s.clients client = some c →
    c.place ≤ rank s.file ∧ (c.place = rank s.file → transcriptOf s.file <+: c.checkpoint.transcript)

omit [Payload V] [DecidableEq V] in
theorem put_clients (s : State V) (client other : Nat) (c : Option (Client V)) :
    (s.put client c).clients other = if other = client then c else s.clients other :=
  Function.update_apply s.clients client c other

omit [Payload V] [DecidableEq V] in
theorem Inv.put (inv : Inv s) {client : Nat} {c : Option (Client V)}
    (h : ∀ k, c = some k → k.place ≤ rank s.file ∧
      (k.place = rank s.file → transcriptOf s.file <+: k.checkpoint.transcript)) : Inv (s.put client c) := by
  intro other k hk
  rw [put_clients] at hk
  by_cases heq : other = client
  · rw [if_pos heq] at hk
    exact h k hk
  · rw [if_neg heq] at hk
    exact inv other k hk

omit [Payload V] [DecidableEq V] in
/-- Clients do not notice a file that has only advanced. -/
theorem Inv.follow (inv : Inv s) {file : Option (Document V)} (h : Follows s.file file) :
    Inv { s with file := file } := by
  rcases h with rfl | ⟨hrank, _⟩
  · exact inv
  · intro client c hc
    have hplace := (inv client c hc).1
    refine ⟨Nat.le_of_lt (Nat.lt_of_le_of_lt hplace hrank), ?_⟩
    intro heq
    have : c.place = rank file := heq
    omega

omit [DecidableEq V] in
theorem publication_follows (inv : Inv s) {client : Nat} {outcome : Publication}
    (hrespects : Respects session s (.publish client outcome)) {c : Client V} (hc : s.clients client = some c) :
    Follows s.file (publication s.file c outcome).1 := by
  rcases saveCheckpoint_cases s.file c.checkpoint (c.seen.getD 0) outcome with ⟨hfile, _⟩ |
    ⟨hfile, hvalid, houtcome, hplace⟩
  · exact .inl hfile
  · rw [publication, hfile]
    obtain ⟨_, hkept⟩ := inv client c hc
    rcases hplace with ⟨hnone, _⟩ | ⟨hrank, hrevision⟩
    · rw [hnone]
      exact .inr ⟨Nat.succ_pos _, List.nil_prefix⟩
    · cases hseen : c.seen with
      | none =>
        rw [hseen, Option.getD_none] at hrank hrevision
        have hzero := hrespects c hc hseen hvalid houtcome hrank.symm
        omega
      | some revision =>
        rw [hseen, Option.getD_some] at hrank hrevision
        have hplace : c.place = rank s.file := by rw [Client.place, hseen]; exact hrank
        refine .inr ⟨?_, hkept hplace⟩
        rw [← hrank, rank_checkpointDocument]
        omega

/-- A step that respects the condition leaves the file or advances it, and keeps the invariant. -/
theorem Inv.step (inv : Inv s) {action : Action V} (hrespects : Respects session s action)
    (h : Session.step session s action = some s') : Inv s' ∧ Follows s.file s'.file := by
  cases action with
  | load client fresh =>
    simp only [Session.step] at h
    split at h
    next hfresh =>
      cases hload : loadCheckpoint s.file session with
      | error error =>
        simp only [hload, Option.some.injEq] at h
        subst h
        exact ⟨inv.put nofun, .inl rfl⟩
      | ok loaded =>
        rcases readCheckpointIfPresent_eq_ok hload with ⟨hfile, rfl⟩ | ⟨checkpoint, rfl, hrank, htranscript⟩
        · simp only [hload, Option.some.injEq] at h
          subst h
          refine ⟨inv.put ?_, .inl rfl⟩
          intro k hk
          cases hk
          rw [hfile]
          exact ⟨Nat.le_refl 0, fun _ => List.nil_prefix⟩
        · simp only [hload, Option.some.injEq] at h
          subst h
          refine ⟨inv.put ?_, .inl rfl⟩
          intro k hk
          cases hk
          rw [← htranscript]
          exact ⟨Nat.le_of_eq hrank, fun _ => List.prefix_rfl⟩
    next => contradiction
  | edit client op =>
    simp only [Session.step] at h
    cases hc : s.clients client with
    | none =>
      rw [hc] at h
      contradiction
    | some c =>
      simp only [hc] at h
      cases hedit : c.checkpoint.edit op with
      | error error =>
        simp only [hedit, Option.some.injEq] at h
        subst h
        exact ⟨inv, .inl rfl⟩
      | ok checkpoint =>
        simp only [hedit, Option.some.injEq] at h
        subst h
        refine ⟨inv.put ?_, .inl rfl⟩
        intro k hk
        cases hk
        obtain ⟨hplace, hkept⟩ := inv client c hc
        exact ⟨hplace, fun heq => (hkept heq).trans (SessionCheckpoint.edit_transcript hedit)⟩
  | publish client outcome =>
    simp only [Session.step] at h
    cases hc : s.clients client with
    | none =>
      rw [hc] at h
      contradiction
    | some c =>
      simp only [hc, Option.some.injEq] at h
      subst h
      have hfollows := publication_follows inv hrespects hc
      exact ⟨inv.follow hfollows, hfollows⟩
  | legacy turns outcome =>
    obtain rfl := Option.some.inj h
    have hfollows : Follows s.file (save s.file session turns outcome).1 := save_follows hrespects
    exact ⟨inv.follow hfollows, hfollows⟩

/-! ## Runs -/

omit [Payload V] [DecidableEq V] in
theorem Follows.rank_le {file file' : Option (Document V)} (h : Follows file file') : rank file ≤ rank file' := by
  rcases h with rfl | ⟨hlt, _⟩
  · exact Nat.le_refl _
  · exact Nat.le_of_lt hlt

omit [Payload V] [DecidableEq V] in
theorem Follows.transcript {file file' : Option (Document V)} (h : Follows file file') :
    transcriptOf file <+: transcriptOf file' := by
  rcases h with rfl | ⟨_, hprefix⟩
  · exact List.prefix_rfl
  · exact hprefix

/-- Along a run that respects the condition the file advances and keeps its turns, and if it ends at
the rank it started from no step has changed it. -/
theorem run_follows {actions : List (Action V)} (inv : Inv s)
    (hrespects : ∀ t ∈ trace (Session.step session) s actions, Respects session t.1 t.2.1)
    (h : run (Session.step session) s actions = some s') :
    Inv s' ∧ rank s.file ≤ rank s'.file ∧ transcriptOf s.file <+: transcriptOf s'.file ∧
      (rank s'.file ≤ rank s.file → ∀ t ∈ trace (Session.step session) s actions, t.2.2.file = t.1.file) := by
  induction actions generalizing s with
  | nil =>
    obtain rfl := Option.some.inj h
    exact ⟨inv, Nat.le_refl _, List.prefix_rfl, fun _ t ht => by simp [trace] at ht⟩
  | cons action actions ih =>
    obtain ⟨next, hstep, hrun⟩ := run_cons_eq_some.mp h
    rw [trace_cons hstep] at hrespects ⊢
    obtain ⟨hfirst, hrest⟩ := List.forall_mem_cons.mp hrespects
    obtain ⟨hinv, hfollows⟩ := inv.step hfirst hstep
    obtain ⟨hinv', hrank, htranscript, hsame⟩ := ih hinv hrest hrun
    refine ⟨hinv', Nat.le_trans hfollows.rank_le hrank, hfollows.transcript.trans htranscript, ?_⟩
    intro hle
    refine List.forall_mem_cons.mpr ⟨?_, hsame (Nat.le_trans hle hfollows.rank_le)⟩
    rcases hfollows with heq | ⟨hlt, _⟩
    · exact heq
    · omega

omit [Payload V] [DecidableEq V] in
theorem put_place (s : State V) {client other : Nat} {c : Option (Client V)}
    (h : other = client → c.map Client.place = (s.clients client).map Client.place) :
    ((s.put client c).clients other).map Client.place = (s.clients other).map Client.place := by
  rw [put_clients]
  by_cases heq : other = client
  · rw [if_pos heq, h heq, heq]
  · rw [if_neg heq]

/-- Only its own loads change what a client has seen. -/
theorem step_seen {action : Action V} (h : Session.step session s action = some s') {client : Nat}
    (hload : ∀ fresh, action ≠ .load client fresh) :
    (s'.clients client).map Client.place = (s.clients client).map Client.place := by
  cases action with
  | load other fresh =>
    have hne : client ≠ other := by
      rintro rfl
      exact hload fresh rfl
    simp only [Session.step] at h
    split at h
    next hfresh =>
      split at h <;> obtain rfl := Option.some.inj h <;> exact put_place s fun heq => absurd heq hne
    next => contradiction
  | edit other op =>
    simp only [Session.step] at h
    cases hc : s.clients other with
    | none =>
      rw [hc] at h
      contradiction
    | some c =>
      simp only [hc] at h
      cases hedit : c.checkpoint.edit op with
      | error error =>
        simp only [hedit, Option.some.injEq] at h
        rw [h]
      | ok checkpoint =>
        simp only [hedit, Option.some.injEq] at h
        subst h
        refine put_place s fun _ => ?_
        rw [hc]
        rfl
  | publish other outcome =>
    simp only [Session.step] at h
    cases hc : s.clients other with
    | none =>
      rw [hc] at h
      contradiction
    | some c =>
      simp only [hc, Option.some.injEq] at h
      rw [← h]
  | legacy turns outcome =>
    obtain rfl := Option.some.inj h
    rfl

theorem run_seen {actions : List (Action V)} (h : run (Session.step session) s actions = some s') {client : Nat}
    (hload : ∀ fresh, Action.load client fresh ∉ actions) :
    (s'.clients client).map Client.place = (s.clients client).map Client.place := by
  induction actions generalizing s with
  | nil =>
    obtain rfl := Option.some.inj h
    rfl
  | cons action actions ih =>
    obtain ⟨next, hstep, hrun⟩ := run_cons_eq_some.mp h
    have hother : ∀ fresh, action ≠ .load client fresh := by
      rintro fresh rfl
      exact hload fresh List.mem_cons_self
    rw [ih hrun fun fresh hmem => hload fresh (List.mem_cons_of_mem _ hmem), step_seen hstep hother]

/-- A load places the client at the file it has read. -/
theorem load_place {client : Nat} {fresh : SessionCheckpoint V}
    (h : Session.step session s (.load client fresh) = some s') {c : Client V}
    (hc : s'.clients client = some c) : c.place = rank s'.file := by
  simp only [Session.step] at h
  split at h
  next hfresh =>
    cases hload : loadCheckpoint s.file session with
    | error error =>
      simp only [hload, Option.some.injEq] at h
      subst h
      rw [put_clients, if_pos rfl] at hc
      contradiction
    | ok loaded =>
      rcases readCheckpointIfPresent_eq_ok hload with ⟨hfile, rfl⟩ | ⟨checkpoint, rfl, hrank, _⟩
      · simp only [hload, Option.some.injEq] at h
        subst h
        rw [put_clients, if_pos rfl] at hc
        cases hc
        exact (congrArg rank hfile).symm
      · simp only [hload, Option.some.injEq] at h
        subst h
        rw [put_clients, if_pos rfl] at hc
        cases hc
        exact hrank
  next => contradiction

omit [DecidableEq V] in
/-- A publication that succeeds finds the file no later than the client's load. -/
theorem publishes_rank {client : Nat} {outcome : Publication}
    (hrespects : Respects session s (.publish client outcome)) {c : Client V} (hc : s.clients client = some c)
    (h : (publication s.file c outcome).2 = .ok ()) : rank s.file ≤ c.place := by
  rcases saveCheckpoint_cases s.file c.checkpoint (c.seen.getD 0) outcome with ⟨_, hfailed⟩ |
    ⟨_, hvalid, houtcome, hplace⟩
  · exact absurd h hfailed
  · rcases hplace with ⟨hnone, _⟩ | ⟨hrank, hrevision⟩
    · rw [hnone]
      exact Nat.zero_le _
    · cases hseen : c.seen with
      | none =>
        rw [hseen, Option.getD_none] at hrank hrevision
        have hzero := hrespects c hc hseen hvalid houtcome hrank.symm
        omega
      | some revision =>
        rw [hseen, Option.getD_some] at hrank
        rw [← hrank, Client.place, hseen]
        exact Nat.le_refl _

/-- What the clients of a file may rely on over a run. -/
structure Faithful (session : SessionId) (s : State V) (actions : List (Action V)) : Prop where
  /-- A publication succeeds only if no save has changed the file since the client's load. -/
  fresh : ∀ before client own between outcome after loaded found,
    actions = before ++ .load client own :: (between ++ .publish client outcome :: after) →
    run (Session.step session) s (before ++ [.load client own]) = some loaded →
    run (Session.step session) loaded between = some found → (∀ own, Action.load client own ∉ between) →
    Publishes found client outcome →
      ∀ t ∈ trace (Session.step session) loaded between, t.2.2.file = t.1.file
  /-- Every turn in the file stays there, in its position and with its body. -/
  kept : ∀ before between after earlier later, actions = before ++ (between ++ after) →
    run (Session.step session) s before = some earlier →
    run (Session.step session) earlier between = some later →
      transcriptOf earlier.file <+: transcriptOf later.file

/-- In every run whose steps respect the condition no save is lost. -/
theorem checkpoint_faithful (hstart : ∀ client, s.clients client = none) {actions : List (Action V)}
    (hrespects : ∀ t ∈ trace (Session.step session) s actions, Respects session t.1 t.2.1) :
    Faithful session s actions := by
  have hinv : Inv s := by
    intro client c hc
    rw [hstart client] at hc
    contradiction
  constructor
  · rintro before client own between outcome after loaded found rfl hload hbetween hnoload ⟨c, hc, hpublishes⟩
    rw [List.append_cons] at hrespects
    obtain ⟨hbefore, hrest⟩ := forall_trace_append hload hrespects
    obtain ⟨hmid, hlast⟩ := forall_trace_append hbetween hrest
    have hpublish : Respects session found (.publish client outcome) := by
      have hstep : Session.step session found (.publish client outcome) =
          some { found with file := (publication found.file c outcome).1 } := by
        simp only [Session.step, hc]
      rw [trace_cons hstep] at hlast
      exact (List.forall_mem_cons.mp hlast).1
    have hplace : rank found.file ≤ rank loaded.file := by
      have hseen := run_seen hbetween hnoload
      rw [hc] at hseen
      cases hloaded : loaded.clients client with
      | none =>
        rw [hloaded] at hseen
        contradiction
      | some c' =>
        rw [hloaded, Option.map_some, Option.map_some, Option.some.injEq] at hseen
        rw [run_append, Option.bind_eq_some_iff] at hload
        obtain ⟨start, _, hlast⟩ := hload
        obtain ⟨loaded', hstep, hnil⟩ := run_cons_eq_some.mp hlast
        obtain rfl := Option.some.inj hnil
        rw [← load_place hstep hloaded, ← hseen]
        exact publishes_rank hpublish hc hpublishes
    have hinv' := (run_follows hinv hbefore hload).1
    exact (run_follows hinv' hmid hbetween).2.2.2 hplace
  · rintro before between after earlier later rfl hbefore hbetween
    obtain ⟨hfirst, hrest⟩ := forall_trace_append hbefore hrespects
    have hinv' := (run_follows hinv hfirst hbefore).1
    exact (run_follows hinv' (forall_trace_append hbetween hrest).1 hbetween).2.2.1

end Runs

/-! ## A creator and a branch -/

namespace Sample

instance : Payload Unit := ⟨fun _ => true, fun _ => false⟩

def session : SessionId := ⟨1⟩

def absent : State Unit := ⟨none, fun _ => none⟩

/-- A branch that brings one turn with it. -/
def branched : SessionCheckpoint Unit :=
  { SessionCheckpoint.new session with
    parent := some ⟨2⟩, parentRevision := some 1, turns := [⟨⟨1⟩, "first", [], none⟩] }

/-- A client that adds a turn to a checkpoint of its own and publishes it. -/
def create : List (Action Unit) :=
  [.load 0 (.new session), .edit 0 (.turn ⟨⟨2⟩, "second", [], none⟩), .publish 0 .published]

/-- The same, with a branch published in between. -/
def branch : List (Action Unit) :=
  [.load 0 (.new session), .load 1 branched, .publish 1 .published]

def create' : List (Action Unit) := [.edit 0 (.turn ⟨⟨2⟩, "second", [], none⟩), .publish 0 .published]

theorem create_respects : ∀ t ∈ trace (step session) absent create, Respects session t.1 t.2.1 := by
  rw [create, trace_cons rfl, trace_cons rfl, trace_cons rfl]
  simp only [List.forall_mem_cons]
  exact ⟨trivial, trivial, fun _ _ _ _ _ hrank => absurd hrank (by decide), fun t ht => by simp [trace] at ht⟩

end Sample

open Sample in
/-- A client that creates the file. -/
theorem checkpoint_faithful_create : Faithful session absent create :=
  checkpoint_faithful (fun _ => rfl) create_respects

open Sample in
/-- A client that found no file replaces a branch that was published meanwhile, and its turn. -/
theorem checkpoint_lost : ¬Faithful session absent (branch ++ create') := by
  intro h
  have hkept := h.kept branch create' [] _ _ rfl rfl rfl
  exact absurd hkept (by decide)

end SupraHarness.Session
