import Mathlib.Data.List.Nodup
import Mathlib.Logic.Function.Basic
import SupraHarness.Loader.Manifest

/-!
# What a set holds of each file

The names, the rows and the sources of a set correspond one to one, so that the set is determined by the
skill it holds of each file. Loading, and every path of an event, is stated as what it makes of that.
-/
namespace SupraHarness.Loader

open Digest (Path Text Event EventKind)

namespace Skills

/-- The skill whose source is this file. -/
def held (skills : Skills) (path : Path) : Option Skill := (skills.nameOf path).bind skills.byName.get

/-- Names, rows and sources correspond. -/
structure Coherent (skills : Skills) : Prop where
  named : ∀ name skill, skills.byName.get name = some skill → skill.name = name
  sourced : ∀ name, (skills.byName.get name).isSome = (skills.sources.get name).isSome
  single : ∀ name name' path, skills.sources.get name = some path → skills.sources.get name' = some path → name = name'

theorem coherent_new : Coherent new where
  named := by intro name skill h; cases h
  sourced := by intro name; rfl
  single := by intro name name' path h; cases h

theorem get_sources_of_nameOf {skills : Skills} {path : Path} {name : Text} (h : skills.nameOf path = some name) :
    skills.sources.get name = some path := by
  obtain ⟨entry, found, rfl⟩ := Option.map_eq_some_iff.1 h
  have source : entry.2 = path := by simpa using List.find?_some found
  exact source ▸ OrdMap.get_eq_some.2 (List.mem_of_find?_eq_some found)

variable {skills other : Skills} {path : Path} {name : Text} {skill : Skill}

theorem nameOf_eq_some (hc : skills.Coherent) :
    skills.nameOf path = some name ↔ skills.sources.get name = some path := by
  constructor
  · exact get_sources_of_nameOf
  · intro h
    have found : (skills.nameOf path).isSome := by
      rw [nameOf, Option.isSome_map, List.find?_isSome]
      exact ⟨(name, path), OrdMap.get_eq_some.1 h, by simp⟩
    obtain ⟨name', h'⟩ := Option.isSome_iff_exists.1 found
    rw [h', hc.single name' name path (get_sources_of_nameOf h') h]

theorem held_eq_some (hc : skills.Coherent) :
    skills.held path = some skill ↔
      skills.byName.get skill.name = some skill ∧ skills.sources.get skill.name = some path := by
  rw [held, Option.bind_eq_some_iff]
  constructor
  · rintro ⟨name, source, row⟩
    obtain rfl := hc.named name skill row
    exact ⟨row, get_sources_of_nameOf source⟩
  · rintro ⟨row, source⟩
    exact ⟨skill.name, (nameOf_eq_some hc).2 source, row⟩

/-- Every row is held of a file. -/
theorem exists_held (hc : skills.Coherent) (row : skills.byName.get name = some skill) :
    ∃ path, skills.sources.get name = some path ∧ skills.held path = some skill := by
  obtain rfl := hc.named name skill row
  have some := hc.sourced skill.name
  rw [row, Option.isSome_some] at some
  obtain ⟨path, source⟩ := Option.isSome_iff_exists.1 some.symm
  exact ⟨path, source, (held_eq_some hc).2 ⟨row, source⟩⟩

theorem exists_row (hc : skills.Coherent) (source : skills.sources.get name = some path) :
    ∃ skill, skills.byName.get name = some skill ∧ skills.held path = some skill := by
  have some := hc.sourced name
  rw [source, Option.isSome_some] at some
  obtain ⟨skill, row⟩ := Option.isSome_iff_exists.1 some
  obtain rfl := hc.named name skill row
  exact ⟨skill, row, (held_eq_some hc).2 ⟨row, source⟩⟩

/-- A set is determined by what it holds of each file. -/
theorem ext_held (hc : skills.Coherent) (hc' : other.Coherent) (h : ∀ path, skills.held path = other.held path) :
    skills = other := by
  have rows {a b : Skills} (ha : a.Coherent) (hb : b.Coherent) (h : ∀ path, a.held path = b.held path)
      (name : Text) (skill : Skill) (row : a.byName.get name = some skill) : b.byName.get name = some skill := by
    obtain ⟨path, -, mem⟩ := exists_held ha row
    obtain rfl := ha.named name skill row
    exact ((held_eq_some hb).1 (h path ▸ mem)).1
  have files {a b : Skills} (ha : a.Coherent) (hb : b.Coherent) (h : ∀ path, a.held path = b.held path)
      (name : Text) (path : Path) (source : a.sources.get name = some path) : b.sources.get name = some path := by
    obtain ⟨skill, row, mem⟩ := exists_row ha source
    obtain rfl := ha.named name skill row
    exact ((held_eq_some hb).1 (h path ▸ mem)).2
  have names : skills.byName = other.byName := OrdMap.ext_get fun name => Option.ext fun skill =>
    ⟨rows hc hc' h name skill, rows hc' hc (fun path => (h path).symm) name skill⟩
  have sources : skills.sources = other.sources := OrdMap.ext_get fun name => Option.ext fun path =>
    ⟨files hc hc' h name path, files hc' hc (fun path => (h path).symm) name path⟩
  cases skills
  cases other
  cases names
  cases sources
  rfl

theorem get_without {β : Type} (rows : OrdMap Text β) (name key : Text) :
    (rows.retain fun other _ => other ≠ name).get key = if key = name then none else rows.get key := by
  rw [OrdMap.get_retain]
  by_cases same : key = name
  · simp [same]
  · cases rows.get key with
    | none => simp
    | some row => simp [same]

theorem byName_drop (key : Text) :
    (skills.drop name).byName.get key = if key = name then none else skills.byName.get key := by
  rw [drop, get_without]

theorem sources_drop (key : Text) :
    (skills.drop name).sources.get key = if key = name then none else skills.sources.get key := by
  rw [drop, get_without]

theorem byName_add (key : Text) :
    (skills.add path skill).byName.get key = if key = skill.name then some skill else skills.byName.get key := by
  rw [add, OrdMap.get_insert]
  congr

theorem sources_add (key : Text) :
    (skills.add path skill).sources.get key = if key = skill.name then some path else skills.sources.get key := by
  rw [add, OrdMap.get_insert]
  congr

theorem Coherent.drop (hc : skills.Coherent) (name : Text) : (skills.drop name).Coherent where
  named := by
    intro key skill h
    rw [byName_drop] at h
    split at h
    · cases h
    · exact hc.named key skill h
  sourced := by
    intro key
    rw [byName_drop, sources_drop]
    split
    · rfl
    · exact hc.sourced key
  single := by
    intro key key' path h h'
    rw [sources_drop] at h h'
    split at h
    · cases h
    · split at h'
      · cases h'
      · exact hc.single key key' path h h'

/-- Without the row of a file, the set holds nothing of it. -/
theorem held_drop (hc : skills.Coherent) (source : skills.sources.get name = some path) :
    (skills.drop name).held = Function.update skills.held path none := by
  funext file
  apply Option.ext
  intro skill
  rw [held_eq_some (hc.drop name), byName_drop, sources_drop, Function.update_apply]
  by_cases same : skill.name = name
  · rw [if_pos same, if_pos same]
    have gone : ¬ (if file = path then none else skills.held file) = some skill := by
      intro h
      split at h
      · cases h
      · rename_i ne
        have source' := ((held_eq_some hc).1 h).2
        rw [same, source] at source'
        exact ne (Option.some.inj source').symm
    simp [gone]
  · rw [if_neg same, if_neg same, ← held_eq_some hc]
    by_cases here : file = path
    · have absent : skills.held file ≠ some skill := by
        intro h
        exact same (hc.single _ _ path (here ▸ ((held_eq_some hc).1 h).2) source)
      simp [here ▸ absent, here]
    · rw [if_neg here]

theorem Coherent.add (hc : skills.Coherent) (new : ∀ name, skills.sources.get name ≠ some path) :
    (skills.add path skill).Coherent where
  named := by
    intro key skill' h
    rw [byName_add] at h
    split at h
    · rename_i same
      rw [← Option.some.inj h, same]
    · exact hc.named key skill' h
  sourced := by
    intro key
    rw [byName_add, sources_add]
    split
    · rfl
    · exact hc.sourced key
  single := by
    intro key key' file h h'
    rw [sources_add] at h h'
    split at h
    · rename_i same
      split at h'
      · rename_i same'
        rw [same, same']
      · exact absurd (Option.some.inj h ▸ h') (new key')
    · split at h'
      · exact absurd (Option.some.inj h' ▸ h) (new key)
      · exact hc.single key key' file h h'

/-- A file of which the set holds nothing, with a name the set does not have. -/
theorem held_add (hc : skills.Coherent) (new : ∀ name, skills.sources.get name ≠ some path)
    (free : skills.sources.get skill.name = none) :
    (skills.add path skill).held = Function.update skills.held path (some skill) := by
  funext file
  apply Option.ext
  intro skill'
  rw [held_eq_some (hc.add new), byName_add, sources_add, Function.update_apply]
  by_cases same : skill'.name = skill.name
  · have absent : skills.held file ≠ some skill' := by
      intro h
      have source := ((held_eq_some hc).1 h).2
      rw [same, free] at source
      cases source
    rw [if_pos same, if_pos same]
    by_cases here : file = path
    · simp [here]
    · simp [here, absent, Ne.symm here]
  · rw [if_neg same, if_neg same, ← held_eq_some hc]
    by_cases here : file = path
    · have absent : skills.held file ≠ some skill' := by
        intro h
        exact new _ (here ▸ ((held_eq_some hc).1 h).2)
      have differ : skill ≠ skill' := fun h => same (h ▸ rfl)
      simp [here ▸ absent, here, differ]
    · rw [if_neg here]

/-- Nothing is held of a file exactly when no name has it as its source. -/
theorem held_eq_none (hc : skills.Coherent) : skills.held path = none ↔ ∀ name, skills.sources.get name ≠ some path := by
  constructor
  · intro h name source
    obtain ⟨skill, -, mem⟩ := exists_row hc source
    rw [h] at mem
    cases mem
  · intro h
    by_contra some
    obtain ⟨skill, mem⟩ := Option.ne_none_iff_exists'.1 some
    exact h _ ((held_eq_some hc).1 mem).2

end Skills

/-- The skill a file holds, if it is there and is one. -/
def said (files : Files) (path : Path) : Option Skill := (Skill.parse files path).toOption

theorem said_eq_some {files : Files} {path : Path} {skill : Skill} :
    said files path = some skill ↔ Skill.parse files path = .ok skill := by
  rw [said]
  cases Skill.parse files path with
  | error e => exact iff_of_false (by simp [Except.toOption]) (by simp)
  | ok skill' => simp [Except.toOption]

theorem said_of_absent {files : Files} {path : Path} (h : files.get path = none) : said files path = none := by
  rw [said, Skill.parse, readToString, h]
  rfl

theorem said_congr {files files' : Files} {path : Path} (h : files.get path = files'.get path) :
    said files path = said files' path := by
  rw [said, said, parse_congr h]

/-- What an event of this kind makes of one path, given what was held of it. -/
def told (files : Files) (kind : EventKind) (path : Path) (old : Option Skill) : Option Skill :=
  if path.getLast? ≠ some skillFile then old
  else
    match kind with
    | .other => old
    | .remove => none
    | .create | .modify => said files path

namespace Skills

variable {files : Files} {skills loaded next : Skills} {path directory : Path}

theorem loadFile_ok (hc : skills.Coherent) (fresh : skills.held path = none)
    (h : loadFile files skills path = .ok next) :
    next.Coherent ∧ next.held = Function.update skills.held path (said files path) := by
  obtain ⟨skill, parsed, rest⟩ := Results.bind_eq_ok.1 h
  have new := (held_eq_none hc).1 fresh
  cases free : skills.sources.get skill.name with
  | some first =>
    rw [free] at rest
    cases rest
  | none =>
    rw [free] at rest
    cases rest
    rw [said_eq_some.2 parsed]
    exact ⟨hc.add new, held_add hc new free⟩

theorem loadFiles_ok {paths : List Path} (apart : paths.Nodup) (hc : skills.Coherent)
    (fresh : ∀ path ∈ paths, skills.held path = none) (h : paths.foldlM (loadFile files) skills = .ok loaded) :
    loaded.Coherent ∧
      ∀ path, loaded.held path = if path ∈ paths then said files path else skills.held path := by
  induction paths generalizing skills with
  | nil =>
    cases h
    exact ⟨hc, fun path => by simp⟩
  | cons first paths ih =>
    rw [List.foldlM_cons] at h
    obtain ⟨next, one, rest⟩ := Results.bind_eq_ok.1 h
    obtain ⟨notin, apart⟩ := List.nodup_cons.1 apart
    obtain ⟨hc', step⟩ := loadFile_ok hc (fresh first List.mem_cons_self) one
    have fresh' : ∀ path ∈ paths, next.held path = none := by
      intro path mem
      have ne : path ≠ first := fun same => notin (same ▸ mem)
      rw [step, Function.update_of_ne ne, fresh path (List.mem_cons_of_mem _ mem)]
    obtain ⟨hc'', rest⟩ := ih apart hc' fresh' rest
    refine ⟨hc'', fun path => ?_⟩
    rw [rest, step]
    by_cases same : path = first
    · simp [same, notin]
    · simp [same]

/-- A loaded set holds what each manifest of the directory says. -/
theorem load_ok (h : load directory files = .ok loaded) :
    loaded.Coherent ∧ loaded.resolveDependencies = .ok () ∧
      ∀ path, loaded.held path = if isManifest directory path then said files path else none := by
  obtain ⟨skills, folded, rest⟩ := Results.bind_eq_ok.1 h
  obtain ⟨_, resolved, same⟩ := Results.bind_eq_ok.1 rest
  cases same
  have apart : (files.keys.filter (isManifest directory)).Nodup :=
    (files.sorted_keys.imp fun h => ne_of_lt h).filter _
  obtain ⟨hc, holds⟩ := loadFiles_ok apart coherent_new (fun path _ => rfl) folded
  refine ⟨hc, resolved, fun path => ?_⟩
  have mem : path ∈ files.keys.filter (isManifest directory) ↔
      (files.get path).isSome ∧ isManifest directory path = true := by
    rw [List.mem_filter, OrdMap.mem_keys]
  have empty : new.held path = none := rfl
  simp only [holds, mem, empty]
  cases found : files.get path with
  | none => simp [said_of_absent found]
  | some bytes => simp

theorem reloadFile_ok {candidate : Skills × OrdMap Text Unit} {result : Skills × OrdMap Text Unit}
    (hc : candidate.1.Coherent) (h : reloadFile files candidate path = .ok result) :
    result.1.Coherent ∧ result.1.held = Function.update candidate.1.held path (said files path) := by
  obtain ⟨skill, parsed, rest⟩ := Results.bind_eq_ok.1 h
  rw [said_eq_some.2 parsed]
  cases old : candidate.1.nameOf path with
  | none =>
    simp only [old] at rest
    have fresh : candidate.1.held path = none := by rw [held, old]; rfl
    have new := (held_eq_none hc).1 fresh
    cases free : candidate.1.sources.get skill.name with
    | some first =>
      rw [free] at rest
      cases rest
    | none =>
      rw [free] at rest
      cases rest
      exact ⟨hc.add new, held_add hc new free⟩
  | some name =>
    simp only [old] at rest
    have dropped := held_drop hc (get_sources_of_nameOf old)
    have fresh : (candidate.1.drop name).held path = none := by rw [dropped, Function.update_self]
    have new := (held_eq_none (hc.drop name)).1 fresh
    cases free : (candidate.1.drop name).sources.get skill.name with
    | some first =>
      rw [free] at rest
      cases rest
    | none =>
      rw [free] at rest
      cases rest
      refine ⟨(hc.drop name).add new, ?_⟩
      rw [held_add (hc.drop name) new free, dropped, Function.update_idem]

/-- What one path of an event makes of the set. -/
theorem applyPath_ok {kind : EventKind} {candidate result : Skills × OrdMap Text Unit}
    (hc : candidate.1.Coherent) (h : applyPath files kind candidate path = .ok result) :
    result.1.Coherent ∧
      result.1.held = Function.update candidate.1.held path (told files kind path (candidate.1.held path)) := by
  have still : candidate.1.held = Function.update candidate.1.held path (candidate.1.held path) :=
    (Function.update_eq_self path candidate.1.held).symm
  unfold applyPath at h
  unfold told
  by_cases other : path.getLast? ≠ some skillFile
  · rw [if_pos other] at h ⊢
    cases h
    exact ⟨hc, still⟩
  · rw [if_neg other] at h ⊢
    cases kind with
    | other =>
      cases h
      exact ⟨hc, still⟩
    | remove =>
      cases old : candidate.1.nameOf path with
      | none =>
        simp only [old] at h
        cases h
        have fresh : candidate.1.held path = none := by rw [held, old]; rfl
        exact ⟨hc, fresh ▸ still⟩
      | some name =>
        simp only [old] at h
        cases h
        exact ⟨hc.drop name, held_drop hc (get_sources_of_nameOf old)⟩
    | create => exact reloadFile_ok hc h
    | modify => exact reloadFile_ok hc h

/-- An event for one file either is refused and leaves the set, or moves what is held of that file. -/
theorem applyEvent_cases (files : Files) (kind : EventKind) (path : Path) (hc : skills.Coherent) :
    (∃ error, skills.applyEvent files ⟨kind, [path]⟩ = (.error error, skills)) ∨
      ∃ changed next, skills.applyEvent files ⟨kind, [path]⟩ = (.ok changed, next) ∧ next.Coherent ∧
        next.held = Function.update skills.held path (told files kind path (skills.held path)) := by
  unfold applyEvent
  cases outcome : applyEventInPlace files skills ⟨kind, [path]⟩ with
  | error error => exact .inl ⟨error, rfl⟩
  | ok result =>
    obtain ⟨candidate, changed⟩ := result
    obtain ⟨folded, applied, rest⟩ := Results.bind_eq_ok.1 outcome
    obtain ⟨_, -, same⟩ := Results.bind_eq_ok.1 rest
    cases same
    obtain ⟨one, step, nothing⟩ := Results.bind_eq_ok.1 applied
    cases nothing
    exact .inr ⟨_, _, rfl, applyPath_ok hc step⟩

end Skills

end SupraHarness.Loader
