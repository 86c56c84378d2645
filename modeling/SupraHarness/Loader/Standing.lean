import SupraHarness.Loader.Order
import SupraHarness.Loader.Reload

/-!
# The sets that stand

What loading and every event, taken or refused, leave behind.
-/
namespace SupraHarness.Loader

open Digest (Path Text Event EventKind)
open Topological

/-! ## Only resolving refuses with a cycle -/

theorem splitFences_error {path : Path} {text : Text} {error : SkillError} (h : splitFences path text = .error error) :
    ∃ detail, error = .parse path detail := by
  unfold splitFences at h
  dsimp only at h
  split at h
  · cases h
    exact ⟨_, rfl⟩
  · split at h
    · cases h
      exact ⟨_, rfl⟩
    · split_ifs at h
      cases h
      exact ⟨_, rfl⟩

theorem nonblank_error {path : Path} {field : String} {value : Text} {error : SkillError}
    (h : nonblank path field value = .error error) : error = .missingField path field := by
  rw [nonblank] at h
  split_ifs at h
  cases h
  rfl

theorem readLine_error {path : Path} {front : Front} {line : Text} {error : SkillError}
    (h : readLine path front line = .error error) :
    (∃ detail, error = .parse path detail) ∨ ∃ field, error = .missingField path field := by
  unfold readLine at h
  dsimp only at h
  split_ifs at h with blank
  split at h
  · cases h
    exact .inl ⟨_, rfl⟩
  · split_ifs at h
    · exact .inr ⟨_, nonblank_error (Results.map_eq_error.1 h)⟩
    · exact .inr ⟨_, nonblank_error (Results.map_eq_error.1 h)⟩

/-- A file is refused for what cannot be read of it, for its form or for a field it lacks. -/
theorem parse_error {files : Files} {path : Path} {error : SkillError} (h : Skill.parse files path = .error error) :
    (∃ cause, error = .io cause) ∨ (∃ detail, error = .parse path detail) ∨ ∃ field, error = .missingField path field := by
  rcases Results.bind_eq_error.1 h with unread | ⟨text, -, refused⟩
  · refine .inl ?_
    rw [readToString] at unread
    split at unread
    · cases unread
      exact ⟨_, rfl⟩
    · cases text : Str.fromUtf8 _ with
      | error e =>
        rw [text] at unread
        cases unread
        exact ⟨_, rfl⟩
      | ok text' =>
        rw [text] at unread
        cases unread
  · refine .inr ?_
    rcases Results.bind_eq_error.1 refused with fences | ⟨⟨front, body⟩, -, refused⟩
    · exact .inl (splitFences_error fences)
    · rcases Results.bind_eq_error.1 refused with lines | ⟨read, -, refused⟩
      · obtain ⟨line, -, before, refused⟩ := Results.foldlM_eq_error lines
        exact readLine_error refused
      · split at refused
        · cases refused
          exact .inr ⟨_, rfl⟩
        · cases refused
          exact .inr ⟨_, rfl⟩
        · cases refused

theorem parse_ne_cycle {files : Files} {path : Path} {cycle : Text} : Skill.parse files path ≠ .error (.cycle cycle) := by
  intro h
  rcases parse_error h with ⟨_, cause⟩ | ⟨_, cause⟩ | ⟨_, cause⟩ <;> cases cause

namespace Skills

variable {files : Files} {skills : Skills} {directory : Path} {event : Event}

/-- The set that the files of a directory make, before it is resolved. -/
def loadCandidate (directory : Path) (files : Files) : Except SkillError Skills :=
  (files.keys.filter (isManifest directory)).foldlM (loadFile files) new

/-- The set that an event makes, before it is resolved. -/
def eventCandidate (files : Files) (skills : Skills) (event : Event) : Except SkillError Skills :=
  (event.paths.foldlM (applyPath files event.kind) (skills, .empty)).map Prod.fst

theorem loadFile_ne_cycle {path : Path} {cycle : Text} : loadFile files skills path ≠ .error (.cycle cycle) := by
  intro h
  rcases Results.bind_eq_error.1 h with refused | ⟨skill, -, refused⟩
  · exact parse_ne_cycle refused
  · split at refused <;> cases refused

theorem applyPath_ne_cycle {kind : EventKind} {candidate : Skills × OrdMap Text Unit} {path : Path} {cycle : Text} :
    applyPath files kind candidate path ≠ .error (.cycle cycle) := by
  have reload : reloadFile files candidate path ≠ .error (.cycle cycle) := by
    intro h
    rcases Results.bind_eq_error.1 h with refused | ⟨skill, -, refused⟩
    · exact parse_ne_cycle refused
    · dsimp only at refused
      split at refused <;> cases refused
  intro h
  unfold applyPath at h
  split_ifs at h
  cases kind with
  | other => cases h
  | remove =>
    dsimp only at h
    split at h <;> cases h
  | create => exact reload h
  | modify => exact reload h

/-- A set is refused with a cycle when it resolves but for one. -/
theorem resolveDependencies_cycle_iff :
    (∃ cycle, skills.resolveDependencies = .error (.cycle cycle)) ↔ skills.Resolved ∧ Cyclic skills.Requires := by
  rcases resolveDependencies_cases skills with
    ⟨not, _, _, refused⟩ | ⟨resolved, cyclic, refused⟩ | ⟨resolved, ok, done, -, walked, full⟩
  · refine iff_of_false ?_ fun both => not both.1
    rintro ⟨cycle, refused'⟩
    rw [refused] at refused'
    cases refused'
  · exact iff_of_true refused ⟨resolved, cyclic⟩
  · refine iff_of_false ?_ ?_
    · rintro ⟨cycle, refused⟩
      rw [ok] at refused
      cases refused
    · rintro ⟨-, name, path⟩
      obtain ⟨required, ⟨skill, row, -⟩, -⟩ := Relation.TransGen.head'_iff.1 path
      have mem := full name (OrdMap.mem_keys.2 (by rw [row]; rfl))
      exact walked.grounded.acyclic walked.nodup mem path

/-- What is so of a set that stands. -/
structure Sound (skills : Skills) : Prop where
  coherent : skills.Coherent
  resolved : skills.Resolved
  acyclic : ¬ Cyclic skills.Requires

theorem sound_of_resolves (hc : skills.Coherent) (h : skills.resolveDependencies = .ok ()) : skills.Sound := by
  have not : ¬ ∃ cycle, skills.resolveDependencies = .error (.cycle cycle) := by
    rintro ⟨cycle, refused⟩
    rw [h] at refused
    cases refused
  rcases resolveDependencies_cases skills with ⟨-, _, _, refused⟩ | ⟨-, -, refused⟩ | ⟨resolved, -⟩
  · rw [h] at refused
    cases refused
  · exact absurd refused not
  · exact ⟨hc, resolved, fun cyclic => not (resolveDependencies_cycle_iff.2 ⟨resolved, cyclic⟩)⟩

theorem loadCandidate_coherent {candidate : Skills} (h : loadCandidate directory files = .ok candidate) :
    candidate.Coherent := by
  have apart : (files.keys.filter (isManifest directory)).Nodup :=
    (files.sorted_keys.imp fun h => ne_of_lt h).filter _
  exact (loadFiles_ok apart coherent_new (fun path _ => rfl) h).1

theorem eventCandidate_coherent (hc : skills.Coherent) {candidate : Skills}
    (h : eventCandidate files skills event = .ok candidate) : candidate.Coherent := by
  obtain ⟨⟨result, changed⟩, folded, rfl⟩ := Results.map_eq_ok.1 h
  exact Results.foldlM_keeps (fun candidate => candidate.1.Coherent)
    (fun path _ candidate result hc step => (applyPath_ok hc step).1) hc folded

/-! ## Loading and events -/

theorem load_eq (directory : Path) (files : Files) :
    load directory files = (loadCandidate directory files).bind fun candidate =>
      candidate.resolveDependencies.map fun _ => candidate := by
  rw [load, loadCandidate]
  rfl

theorem applyEventInPlace_fst (files : Files) (skills : Skills) (event : Event) :
    (applyEventInPlace files skills event).map Prod.fst = (eventCandidate files skills event).bind fun candidate =>
      candidate.resolveDependencies.map fun _ => candidate := by
  rw [applyEventInPlace, eventCandidate]
  cases event.paths.foldlM (applyPath files event.kind) (skills, .empty) with
  | error error => rfl
  | ok result =>
    change Except.map Prod.fst (result.1.resolveDependencies.bind _) = result.1.resolveDependencies.map _
    cases result.1.resolveDependencies <;> rfl

/-- A candidate that is resolved before it is kept. -/
theorem keep_cycle_iff {candidate : Except SkillError Skills}
    (other : ∀ cycle, candidate ≠ .error (.cycle cycle)) :
    (∃ cycle, (candidate.bind fun set => set.resolveDependencies.map fun _ => set) = .error (.cycle cycle)) ↔
      ∃ set, candidate = .ok set ∧ set.Resolved ∧ Cyclic set.Requires := by
  cases candidate with
  | error error =>
    refine iff_of_false ?_ ?_
    · rintro ⟨cycle, refused⟩
      exact other cycle refused
    · rintro ⟨set, made, -⟩
      cases made
  | ok set =>
    have kept (cycle : Text) : ((Except.ok set).bind fun set : Skills => set.resolveDependencies.map fun _ => set) =
        .error (.cycle cycle) ↔ set.resolveDependencies = .error (.cycle cycle) := Results.map_eq_error
    simp only [kept, Except.ok.injEq, exists_eq_left', resolveDependencies_cycle_iff]

theorem load_cycle_iff : (∃ cycle, load directory files = .error (.cycle cycle)) ↔
    ∃ candidate, loadCandidate directory files = .ok candidate ∧ candidate.Resolved ∧ Cyclic candidate.Requires := by
  rw [load_eq]
  refine keep_cycle_iff fun cycle refused => ?_
  obtain ⟨path, -, loaded, refused⟩ := Results.foldlM_eq_error refused
  exact loadFile_ne_cycle refused

theorem applyEvent_cycle_iff :
    (∃ cycle, (skills.applyEvent files event).1 = .error (.cycle cycle)) ↔
      ∃ candidate, eventCandidate files skills event = .ok candidate ∧ candidate.Resolved ∧
        Cyclic candidate.Requires := by
  have same (cycle : Text) : (skills.applyEvent files event).1 = .error (.cycle cycle) ↔
      (applyEventInPlace files skills event).map Prod.fst = .error (.cycle cycle) := by
    rw [Results.map_eq_error, applyEvent]
    cases applyEventInPlace files skills event with
    | error error => simp
    | ok result => exact iff_of_false nofun nofun
  simp only [same, applyEventInPlace_fst]
  refine keep_cycle_iff fun cycle refused => ?_
  obtain ⟨path, -, candidate, refused⟩ := Results.foldlM_eq_error (Results.map_eq_error.1 refused)
  exact applyPath_ne_cycle refused

theorem load_sound {loaded : Skills} (h : load directory files = .ok loaded) : loaded.Sound :=
  sound_of_resolves (load_ok h).1 (load_ok h).2.1

theorem Sound.resolves (hs : skills.Sound) : skills.resolveDependencies = .ok () := by
  rcases resolveDependencies_cases skills with ⟨not, -⟩ | ⟨-, cyclic, -⟩ | ⟨-, ok, -⟩
  · exact absurd hs.resolved not
  · exact absurd cyclic hs.acyclic
  · exact ok

/-- An event that is refused leaves the set. -/
theorem applyEvent_refused {error : SkillError} (h : (skills.applyEvent files event).1 = .error error) :
    (skills.applyEvent files event).2 = skills := by
  rw [applyEvent] at h ⊢
  cases outcome : applyEventInPlace files skills event with
  | error error => rfl
  | ok result =>
    rw [outcome] at h
    cases h

theorem Sound.applyEvent (hs : skills.Sound) (files : Files) (event : Event) :
    (skills.applyEvent files event).2.Sound := by
  rw [Skills.applyEvent]
  cases outcome : applyEventInPlace files skills event with
  | error error => exact hs
  | ok result =>
    have kept := applyEventInPlace_fst files skills event
    rw [outcome] at kept
    obtain ⟨candidate, made, resolved⟩ := Results.bind_eq_ok.1 kept.symm
    obtain ⟨_, resolves, rfl⟩ := Results.map_eq_ok.1 resolved
    exact sound_of_resolves (eventCandidate_coherent hs.coherent made) resolves

/-- Events one after the other, each with the files as they are then. -/
def applyEvents (skills : Skills) (events : List (Files × Event)) : Skills :=
  events.foldl (fun skills event => (skills.applyEvent event.1 event.2).2) skills

theorem Sound.applyEvents (hs : skills.Sound) (events : List (Files × Event)) : (skills.applyEvents events).Sound := by
  induction events generalizing skills with
  | nil => exact hs
  | cons event events ih => exact ih (hs.applyEvent event.1 event.2)

/-- Every set that is loaded, whatever events follow, stands and is listed in the order of its dependencies; loading
and an event are refused with a cycle exactly where the candidate resolves but for one, and a refused event leaves
the set. -/
theorem skills_stand (directory : Path) (files : Files) :
    ((∃ cycle, load directory files = .error (.cycle cycle)) ↔
        ∃ candidate, loadCandidate directory files = .ok candidate ∧ candidate.Resolved ∧ Cyclic candidate.Requires) ∧
      ∀ loaded, load directory files = .ok loaded → ∀ events,
        let skills := loaded.applyEvents events
        skills.Sound ∧
          (∃ order, skills.Listed order ∧
            ∀ fuel, skills.byName.keys.length < fuel → skills.topological fuel = some order) ∧
          ∀ files event,
            ((∃ cycle, (skills.applyEvent files event).1 = .error (.cycle cycle)) ↔
                ∃ candidate, eventCandidate files skills event = .ok candidate ∧ candidate.Resolved ∧
                  Cyclic candidate.Requires) ∧
              ∀ error, (skills.applyEvent files event).1 = .error error → (skills.applyEvent files event).2 = skills := by
  refine ⟨load_cycle_iff, fun loaded start events => ?_⟩
  have hs : (loaded.applyEvents events).Sound := (load_sound start).applyEvents events
  exact ⟨hs, topological_of_resolves hs.coherent hs.resolves,
    fun files event => ⟨applyEvent_cycle_iff, fun error => applyEvent_refused⟩⟩

/-- A skill and the one it requires. -/
def pair : Files :=
  (OrdMap.empty.insert (manifestOf "a") (skillText "a" "b")).insert (manifestOf "b") (skillText "b" "")

/-- The two skills are loaded, and their set stands when the one that is required is removed. -/
theorem skills_stand_pair : ∃ loaded, load skillsDir pair = .ok loaded ∧
    (loaded.applyEvents [(pair.erase (manifestOf "b"), ⟨.remove, [manifestOf "b"]⟩)]).Sound := by
  have loads : (load skillsDir pair).toOption.isSome = true := by decide +kernel
  cases made : load skillsDir pair with
  | error error =>
    rw [made] at loads
    cases loads
  | ok loaded => exact ⟨loaded, rfl, ((skills_stand skillsDir pair).2 loaded made _).1⟩

end Skills

end SupraHarness.Loader
