import SupraHarness.Lib.Run
import SupraHarness.Loader.Held

/-!
# Hot reload against a fresh load

Skill files are created, rewritten and removed, and the events of these changes are forwarded in any
order. An event that would break the set is refused and not kept for later, so that the live set ends as
a fresh load would have it exactly when the event forwarded last for each file took hold.
-/
namespace SupraHarness.Loader

open Digest (Path Event EventKind)
open Run

/-- The files, the events not yet forwarded, and the live set. -/
structure Watched where
  files : Files
  pending : List Event
  skills : Skills

inductive Action where
  /-- Create or rewrite a skill file. -/
  | write (path : Path) (bytes : Bytes)
  | remove (path : Path)
  | forward (event : Event)
  deriving DecidableEq, Repr

def step (directory : Path) (s : Watched) : Action → Option Watched
  | .write path bytes =>
    if isManifest directory path then
      let kind := if (s.files.get path).isSome then EventKind.modify else EventKind.create
      some { s with files := s.files.insert path bytes, pending := s.pending ++ [⟨kind, [path]⟩] }
    else none
  | .remove path =>
    if isManifest directory path && (s.files.get path).isSome then
      some { s with
        files := s.files.retain fun other _ => other ≠ path
        pending := s.pending ++ [⟨.remove, [path]⟩] }
    else none
  | .forward event =>
    if event ∈ s.pending then
      some { s with pending := s.pending.erase event, skills := (s.skills.applyEvent s.files event).2 }
    else none

/-- The state in which an event for the file was forwarded, and the event. -/
def heard (path : Path) (taken : Watched × Action × Watched) : Option (Watched × Event) :=
  match taken.2.1 with
  | .forward event => if path ∈ event.paths then some (taken.1, event) else none
  | .write _ _ | .remove _ => none

/-- The event forwarded last for a file. -/
def lastHeard (path : Path) (taken : List (Watched × Action × Watched)) : Option (Watched × Event) :=
  taken.reverse.findSome? (heard path)

/-- The event takes hold: it is accepted, and finds no skill in the file if it is a remove; or it is refused
by a set that already holds what the file says. -/
def Lands (s : Watched) (event : Event) (path : Path) : Prop :=
  match (s.skills.applyEvent s.files event).1 with
  | .ok _ => event.kind = .remove → said s.files path = none
  | .error _ => s.skills.held path = said s.files path

theorem lastHeard_snoc (path : Path) (taken : List (Watched × Action × Watched)) (t : Watched × Action × Watched) :
    lastHeard path (taken ++ [t]) = (heard path t).or (lastHeard path taken) := by
  rw [lastHeard, List.reverse_append]
  simp [lastHeard, List.findSome?_cons]
  cases heard path t <;> rfl

theorem isManifest_skillFile {directory path : Path} (h : isManifest directory path = true) :
    path.getLast? = some skillFile := by
  simp only [isManifest, Bool.and_eq_true, beq_iff_eq] at h
  exact h.2

/-- What holds of the watched directory after the steps taken. -/
structure Tracks (directory : Path) (s : Watched) (taken : List (Watched × Action × Watched)) : Prop where
  coherent : s.skills.Coherent
  inside : ∀ path, isManifest directory path = false → s.skills.held path = none
  queued : ∀ event ∈ s.pending,
    ∃ kind path, event = ⟨kind, [path]⟩ ∧ kind ≠ .other ∧ isManifest directory path = true
  listened : ∀ path x, lastHeard path taken = some x → isManifest directory path = true
  settled : ∀ path, isManifest directory path = true → (∀ event ∈ s.pending, path ∉ event.paths) →
    (s.skills.held path = said s.files path ↔ ∀ x, lastHeard path taken = some x → Lands x.1 x.2 path)

variable {directory : Path}

/-- A loaded directory with nothing pending is in step with its files. -/
theorem tracks_load {files : Files} {skills : Skills} (h : Skills.load directory files = .ok skills) :
    Tracks directory ⟨files, [], skills⟩ [] := by
  obtain ⟨hc, -, holds⟩ := Skills.load_ok h
  constructor
  · exact hc
  · intro path outside
    rw [holds, outside]
    rfl
  · intro event mem
    cases mem
  · intro path x h
    cases h
  · intro path manifest _
    have none : lastHeard path [] = none := rfl
    simp [holds, manifest, none]

/-- A change of one file leaves every other one as it was, and puts its own event in the queue. -/
theorem Tracks.change {s : Watched} {taken : List (Watched × Action × Watched)} (h : Tracks directory s taken)
    {action : Action} {path : Path} {kind : EventKind} {files : Files} {s' : Watched}
    (silent : ∀ path, heard path (s, action, s') = none) (manifest : isManifest directory path = true)
    (known : kind ≠ .other) (others : ∀ other, other ≠ path → files.get other = s.files.get other)
    (next : s' = { s with files := files, pending := s.pending ++ [⟨kind, [path]⟩] }) :
    Tracks directory s' (taken ++ [(s, action, s')]) := by
  have same (file : Path) : lastHeard file (taken ++ [(s, action, s')]) = lastHeard file taken := by
    rw [lastHeard_snoc, silent, Option.none_or]
  subst next
  constructor
  · exact h.coherent
  · exact h.inside
  · intro event mem
    rcases List.mem_append.1 mem with mem | mem
    · exact h.queued event mem
    · exact ⟨kind, path, List.mem_singleton.1 mem, known, manifest⟩
  · intro file x last
    exact h.listened file x (same file ▸ last)
  · intro file inside quiet
    have ne : file ≠ path := by
      intro here
      exact quiet ⟨kind, [path]⟩ (List.mem_append_right _ (List.mem_singleton.2 rfl)) (here ▸ List.mem_singleton.2 rfl)
    rw [same, ← h.settled file inside fun event mem => quiet event (List.mem_append_left _ mem)]
    rw [said_congr (others file ne)]

/-- The event took hold exactly when the set now holds what the file says. -/
theorem lands_iff {s : Watched} (hc : s.skills.Coherent) {kind : EventKind} (known : kind ≠ .other) {path : Path}
    (manifest : isManifest directory path = true) :
    Lands s ⟨kind, [path]⟩ path ↔
      (s.skills.applyEvent s.files ⟨kind, [path]⟩).2.held path = said s.files path := by
  unfold Lands
  rcases Skills.applyEvent_cases s.files kind path hc with ⟨error, refused⟩ | ⟨changed, next, applied, -, holds⟩
  · rw [refused]
  · have last := isManifest_skillFile manifest
    rw [applied, holds, Function.update_self]
    unfold told
    rw [if_neg (not_not.2 last)]
    cases kind with
    | other => exact absurd rfl known
    | create => simp
    | modify => simp
    | remove => simp [eq_comm]

/-- A forwarded event moves what is held of its own file at most. -/
theorem Tracks.forward {s : Watched} {taken : List (Watched × Action × Watched)} (h : Tracks directory s taken)
    {event : Event} (mem : event ∈ s.pending) {s' : Watched}
    (next : s' = { s with
      pending := s.pending.erase event
      skills := (s.skills.applyEvent s.files event).2 }) :
    Tracks directory s' (taken ++ [(s, .forward event, s')]) := by
  obtain ⟨kind, path, rfl, known, manifest⟩ := h.queued event mem
  have last (file : Path) : lastHeard file (taken ++ [(s, .forward ⟨kind, [path]⟩, s')]) =
      if file = path then some (s, ⟨kind, [path]⟩) else lastHeard file taken := by
    rw [lastHeard_snoc, heard]
    by_cases here : file = path
    · simp [here]
    · simp [here]
  have effect : s'.skills.Coherent ∧ ∀ file, file ≠ path → s'.skills.held file = s.skills.held file := by
    subst next
    rcases Skills.applyEvent_cases s.files kind path h.coherent with
      ⟨error, refused⟩ | ⟨changed, next, applied, hc, holds⟩
    · rw [refused]
      exact ⟨h.coherent, fun _ _ => rfl⟩
    · rw [applied]
      refine ⟨hc, fun file ne => ?_⟩
      rw [holds, Function.update_of_ne ne]
  obtain ⟨hc, others⟩ := effect
  constructor
  · exact hc
  · intro file outside
    have ne : file ≠ path := by
      rintro rfl
      rw [manifest] at outside
      cases outside
    rw [others file ne]
    exact h.inside file outside
  · intro event mem
    subst next
    exact h.queued event (List.mem_of_mem_erase mem)
  · intro file x heard
    rw [last] at heard
    split at heard
    · rename_i here
      exact here ▸ manifest
    · exact h.listened file x heard
  · intro file inside quiet
    rw [last]
    by_cases here : file = path
    · subst here
      have said : said s'.files file = said s.files file := by rw [next]
      have now := lands_iff h.coherent known manifest
      rw [said, if_pos rfl]
      have held : s'.skills = (s.skills.applyEvent s.files ⟨kind, [file]⟩).2 := by rw [next]
      rw [held, ← now]
      simp
    · rw [if_neg here, others file here]
      have files : s'.files = s.files := by rw [next]
      rw [files]
      apply h.settled file inside
      intro event mem
      by_cases same : event = ⟨kind, [path]⟩
      · simpa [same] using here
      · apply quiet event
        rw [next]
        exact (List.mem_erase_of_ne same).2 mem

/-- Every step keeps track. -/
theorem Tracks.step {s s' : Watched} {taken : List (Watched × Action × Watched)} {action : Action}
    (h : Tracks directory s taken) (ran : step directory s action = some s') :
    Tracks directory s' (taken ++ [(s, action, s')]) := by
  cases action with
  | write path bytes =>
    simp only [Loader.step, Option.ite_none_right_eq_some, Option.some.injEq] at ran
    obtain ⟨manifest, rfl⟩ := ran
    refine h.change (fun _ => rfl) manifest ?_ ?_ rfl
    · split
      · decide
      · decide
    · intro other ne
      rw [OrdMap.get_insert, if_neg ne]
  | remove path =>
    simp only [Loader.step, Option.ite_none_right_eq_some, Option.some.injEq, Bool.and_eq_true] at ran
    obtain ⟨⟨manifest, -⟩, rfl⟩ := ran
    refine h.change (fun _ => rfl) manifest (by decide) ?_ rfl
    intro other ne
    rw [OrdMap.get_retain]
    cases s.files.get other with
    | none => rfl
    | some bytes => simp [ne]
  | forward event =>
    simp only [Loader.step, Option.ite_none_right_eq_some, Option.some.injEq] at ran
    obtain ⟨mem, rfl⟩ := ran
    exact h.forward mem rfl

/-- Once every event has been forwarded and the directory would load, the live set is the loaded one exactly
when the event forwarded last for each file took hold. -/
theorem live_eq_loaded_iff {files : Files} {skills : Skills} (start : Skills.load directory files = .ok skills)
    {actions : List Action} {s : Watched} (ran : run (step directory) ⟨files, [], skills⟩ actions = some s)
    (drained : s.pending = []) {loaded : Skills} (fresh : Skills.load directory s.files = .ok loaded) :
    s.skills = loaded ↔
      ∀ path before event, lastHeard path (trace (step directory) ⟨files, [], skills⟩ actions) = some (before, event) →
        Lands before event path := by
  obtain ⟨t, tracks, same⟩ := run_history (fun _ _ _ _ h => h.step) actions (tracks_load start)
  obtain rfl := same s ran
  rw [List.nil_append] at tracks
  obtain ⟨hc, -, holds⟩ := Skills.load_ok fresh
  have settled (path : Path) (manifest : isManifest directory path = true) :=
    tracks.settled path manifest (by rw [drained]; intro event mem; cases mem)
  constructor
  · intro same path before event last
    have manifest := tracks.listened path _ last
    have held : s.skills.held path = said s.files path := by rw [same, holds, if_pos manifest]
    exact (settled path manifest).1 held _ last
  · intro lands
    apply Skills.ext_held tracks.coherent hc
    intro path
    rw [holds]
    by_cases manifest : isManifest directory path = true
    · rw [if_pos manifest]
      exact (settled path manifest).2 fun x last => lands path x.1 x.2 last
    · rw [if_neg manifest]
      exact tracks.inside path (Bool.not_eq_true _ ▸ manifest)

section Example

def skillsDir : Path := ["skills".toList]

def manifestOf (name : String) : Path := skillsDir ++ [name.toList, skillFile]

def skillText (name requires : String) : Bytes :=
  Utf8.encode ("---\nname: " ++ name ++ "\ndescription: d\nrequires: " ++ requires ++ "\n---\n").toList

/-- A skill and the one it requires are created; the events are forwarded as they came. -/
def createdTogether : List Action := [
  .write (manifestOf "a") (skillText "a" "b"), .write (manifestOf "b") (skillText "b" ""),
  .forward ⟨.create, [manifestOf "a"]⟩, .forward ⟨.create, [manifestOf "b"]⟩]

/-- Writing the refused skill once more brings it in. -/
theorem live_eq_loaded_iff_rewritten :
    ∃ s loaded, run (step skillsDir) ⟨.empty, [], .new⟩ (createdTogether ++
        [.write (manifestOf "a") (skillText "a" "b"), .forward ⟨.modify, [manifestOf "a"]⟩]) = some s ∧
      (s.skills = loaded ↔ ∀ path before event, lastHeard path (trace (step skillsDir) ⟨.empty, [], .new⟩
          (createdTogether ++ [.write (manifestOf "a") (skillText "a" "b"),
            .forward ⟨.modify, [manifestOf "a"]⟩])) = some (before, event) → Lands before event path) := by
  have outcome : (run (step skillsDir) ⟨.empty, [], .new⟩ (createdTogether ++
      [.write (manifestOf "a") (skillText "a" "b"), .forward ⟨.modify, [manifestOf "a"]⟩])).map
        (fun s => (s.pending, (Skills.load skillsDir s.files).toOption.isSome)) = some ([], true) := by
    decide +kernel
  obtain ⟨s, ran, same⟩ := Option.map_eq_some_iff.1 outcome
  obtain ⟨drained, loads⟩ := Prod.mk.inj same
  cases fresh : Skills.load skillsDir s.files with
  | error error =>
    rw [fresh] at loads
    cases loads
  | ok loaded => exact ⟨s, loaded, ran, live_eq_loaded_iff rfl ran drained fresh⟩

/-- The skill whose requirement came later stays out of the live set. -/
theorem requirement_comes_later :
    Skills.load skillsDir .empty = .ok .new ∧
      ∃ s loaded, run (step skillsDir) ⟨.empty, [], .new⟩ createdTogether = some s ∧ s.pending = [] ∧
        Skills.load skillsDir s.files = .ok loaded ∧ s.skills ≠ loaded := by
  have outcome : (run (step skillsDir) ⟨.empty, [], .new⟩ createdTogether).map
      (fun s => (s.pending, s.skills.byName.keys, (Skills.load skillsDir s.files).toOption.map (·.byName.keys))) =
        some ([], ["b".toList], some ["a".toList, "b".toList]) := by
    decide +kernel
  obtain ⟨s, ran, same⟩ := Option.map_eq_some_iff.1 outcome
  simp only [Prod.mk.injEq] at same
  obtain ⟨drained, live, loads⟩ := same
  obtain ⟨loaded, fresh, names⟩ := Option.map_eq_some_iff.1 loads
  refine ⟨rfl, s, loaded, ran, drained, ?_, ?_⟩
  · cases result : Skills.load skillsDir s.files with
    | error error =>
      rw [result] at fresh
      cases fresh
    | ok found =>
      rw [result] at fresh
      exact congrArg Except.ok (Option.some.inj fresh)
  · rintro rfl
    rw [live] at names
    revert names
    decide

end Example

end SupraHarness.Loader
