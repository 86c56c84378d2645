import SupraHarness.Lib.Run
import SupraHarness.Vector.Index

/-!
# Handles on one store

Any number of handles share one store. A write commits first and reaches the
resident codes of its handle later; a search reads the revision, and loads the
codes of the version it read when its handle recorded another. Between any two
of these steps any other may fall, of the same handle or of another one. The
ghost log keeps every version that was committed.
-/
namespace SupraHarness.Vector

open SupraHarness.Types SupraHarness.Store SupraHarness.Replica SupraHarness.Run

variable {ι F : Type}

/-- A handle: its resident state, the committed writes that have not reached it, and the versions
that searches are loading. -/
structure Handle where
  state : State
  writes : List Write
  loading : List Tables

structure World (ι : Type) where
  file : Tables
  past : List Tables
  handles : ι → Option Handle

def World.init : World ι := ⟨Tables.empty, [], fun _ => none⟩

/-- Every version committed so far, oldest first. -/
def World.log (w : World ι) : List Tables := w.past ++ [w.file]

inductive Action (ι F : Type) where
  | «open» (i : ι)
  | upsert (i : ι) (faults : Faults) (stamp : Nat) (locator body : Str) (embedding : List F)
  | remove (i : ι) (faults : Faults) (locator : Str)
  /-- The end of an upsert or a remove: the `n`-th committed write reaches the resident state. -/
  | apply (i : ι) (n : Nat)
  /-- The start of a search: its transaction reads the revision. -/
  | search (i : ι)
  /-- The end of a search's loading. -/
  | install (i : ι) (n : Nat)
  /-- A search whose loading fails. -/
  | abandon (i : ι) (n : Nat)

variable [DecidableEq ι]

def World.setHandle (w : World ι) (i : ι) (h : Handle) : World ι :=
  { w with handles := Function.update w.handles i (some h) }

/-- A write is committed; its handle has yet to apply it. -/
def World.commit (w : World ι) (i : ι) (h : Handle) (file : Tables) (write : Write) : World ι :=
  ⟨file, w.log, Function.update w.handles i (some { h with writes := h.writes ++ [write] })⟩

section

variable [F32 F] (config : Meta F)

def step (w : World ι) : Action ι F → Option (World ι)
  | .open i =>
    match w.handles i, loadCodes config w.file with
    | none, .ok codes => some (w.setHandle i ⟨⟨codes, w.file.revision⟩, [], []⟩)
    | _, _ => none
  | .upsert i faults stamp locator body embedding => do
    let h ← w.handles i
    match commitUpsert config faults stamp w.file locator body embedding with
    | (file, .error _) => some { w with file := file }
    | (file, .ok write) => some (w.commit i h file write)
  | .remove i faults locator => do
    let h ← w.handles i
    match commitRemove faults w.file locator with
    | (file, .error _) => some { w with file := file }
    | (file, .ok none) => some { w with file := file }
    | (file, .ok (some write)) => some (w.commit i h file write)
  | .apply i n => do
    let h ← w.handles i
    let write ← h.writes[n]?
    some (w.setHandle i { h with state := h.state.apply write, writes := h.writes.eraseIdx n })
  | .search i => do
    let h ← w.handles i
    if h.state.revision = w.file.revision then some w
    else some (w.setHandle i { h with loading := h.loading ++ [w.file] })
  | .install i n => do
    let h ← w.handles i
    let seen ← h.loading[n]?
    match loadCodes config seen with
    | .error _ => some (w.setHandle i { h with loading := h.loading.eraseIdx n })
    | .ok codes => some (w.setHandle i { h with
        state := h.state.install codes seen.revision, loading := h.loading.eraseIdx n })
  | .abandon i n => do
    let h ← w.handles i
    some (w.setHandle i { h with loading := h.loading.eraseIdx n })

/-- The handle and the version of a search that this step leaves synchronised. -/
def synced : World ι × Action ι F × World ι → Option (ι × Tables)
  | (w, .search i, _) =>
    match w.handles i with
    | some h => if h.state.revision = w.file.revision then some (i, w.file) else none
    | none => none
  | (w, .install i n, _) =>
    match (w.handles i).bind fun h => h.loading[n]? with
    | some seen => if (loadCodes config seen).isOk then some (i, seen) else none
    | none => none
  | _ => none

/-- A write reaches its handle at the revision it made, or at the one before it. -/
def Near : World ι → Action ι F → Prop
  | w, .apply i n => ∀ h ∈ w.handles i, ∀ write ∈ h.writes[n]?,
      write.revision = h.state.revision ∨ write.revision = h.state.revision + 1
  | _, _ => True

end

/-! ## The invariant -/

section

variable {config : Meta F}

/-- The codes of a version. -/
def codesOf (tables : Tables) : Int → Option (List UInt8) := lookup tables.entries

/-- A handle holds the version it recorded, and knows what its writes did to the log. -/
structure Handle.Tracks (config : Meta F) (log : List Tables) (h : Handle) : Prop where
  stride : h.state.codes.stride = config.codeBytes
  resident : Right (log.map codesOf) h.state.codes.code h.state.revision
  writes : ∀ write ∈ h.writes, Wrote (log.map codesOf) write.revision write.act
  widths : ∀ write ∈ h.writes, ∀ code ∈ write.code, code.length = config.codeBytes
  loading : ∀ seen ∈ h.loading, seen ∈ log

/-- The log is numbered by the revisions, and every handle tracks it. -/
structure Inv (config : Meta F) (w : World ι) : Prop where
  numbered : ∀ (n : Nat) (tables : Tables), w.log[n]? = some tables → tables.revision = n
  sound : ∀ tables ∈ w.log, tables.Sound config
  handles : ∀ i h, w.handles i = some h → h.Tracks config w.log

theorem Handle.Tracks.append {log : List Tables} {h : Handle} (ht : h.Tracks config log)
    (more : List Tables) : h.Tracks config (log ++ more) := by
  have hmap : (log ++ more).map codesOf = log.map codesOf ++ more.map codesOf := List.map_append
  refine ⟨ht.stride, ?_, ?_, ht.widths, ?_⟩
  · rw [hmap]
    exact ht.resident.append _
  · intro write hwrite
    rw [hmap]
    exact (ht.writes write hwrite).append _
  · intro seen hseen
    exact List.mem_append_left _ (ht.loading seen hseen)

/-- A write that is near reaches the resident codes as it reached the log. -/
theorem Handle.Tracks.apply {log : List Tables} {h : Handle} (ht : h.Tracks config log) {n : Nat}
    {write : Write} (hwrite : h.writes[n]? = some write)
    (hnear : write.revision = h.state.revision ∨ write.revision = h.state.revision + 1) :
    Handle.Tracks config log { h with state := h.state.apply write, writes := h.writes.eraseIdx n } := by
  have hmem := List.mem_of_getElem? hwrite
  have hwidth : ∀ code ∈ write.code, code.length = h.state.codes.stride := by
    rw [ht.stride]
    exact ht.widths write hmem
  refine ⟨(stride_apply ..).trans ht.stride, ?_, ?_, ?_, ht.loading⟩
  · rw [code_apply hwidth, revision_apply]
    exact ht.resident.apply (ht.writes write hmem) hnear
  · intro other hother
    exact ht.writes other (List.mem_of_mem_eraseIdx hother)
  · intro other hother
    exact ht.widths other (List.mem_of_mem_eraseIdx hother)

/-- The codes of a version that is on the log. -/
theorem right_of_mem {log : List Tables}
    (hnumbered : ∀ (n : Nat) (tables : Tables), log[n]? = some tables → tables.revision = n) {tables : Tables} (hmem : tables ∈ log) : Right (log.map codesOf) (codesOf tables) tables.revision := by
  obtain ⟨n, hn⟩ := List.getElem?_of_mem hmem
  rw [Right, List.getElem?_map, hnumbered n tables hn, hn]
  rfl

theorem Handle.Tracks.install {log : List Tables} {h : Handle} (ht : h.Tracks config log)
    (hnumbered : ∀ (n : Nat) (tables : Tables), log[n]? = some tables → tables.revision = n) (n : Nat) {seen : Tables}
    (hseen : seen ∈ log) {codes : CodeTable} (hstride : codes.stride = config.codeBytes)
    (hcodes : codes.code = codesOf seen) :
    Handle.Tracks config log
      { h with state := h.state.install codes seen.revision, loading := h.loading.eraseIdx n } := by
  have hloading : ∀ t ∈ h.loading.eraseIdx n, t ∈ log := by
    intro t hmem
    exact ht.loading t (List.mem_of_mem_eraseIdx hmem)
  by_cases hsame : h.state.revision = seen.revision
  · have hinstall : h.state.install codes seen.revision = h.state := if_pos hsame
    rw [hinstall]
    exact ⟨ht.stride, ht.resident, ht.writes, ht.widths, hloading⟩
  · have hinstall : h.state.install codes seen.revision = ⟨codes, seen.revision⟩ := if_neg hsame
    rw [hinstall]
    refine ⟨hstride, ?_, ht.writes, ht.widths, hloading⟩
    rw [hcodes]
    exact right_of_mem hnumbered hseen

theorem inv_setHandle {w : World ι} {i : ι} {h : Handle} (hw : Inv config w) (ht : h.Tracks config w.log) :
    Inv config (w.setHandle i h) := by
  refine ⟨hw.numbered, hw.sound, ?_⟩
  intro j other hother
  simp only [World.setHandle, Function.update_apply] at hother
  split at hother
  · cases hother
    exact ht
  · exact hw.handles j other hother

omit [DecidableEq ι] in
theorem file_revision {w : World ι} (hw : Inv config w) : w.file.revision = w.past.length :=
  hw.numbered _ _ (by simp [World.log])

/-- A committed write makes the next version. -/
theorem inv_commit {w : World ι} {i : ι} {h : Handle} {file : Tables} {write : Write} (hw : Inv config w)
    (hi : w.handles i = some h) (hsound : file.Sound config) (hrevision : file.revision = w.file.revision + 1)
    (hwrite : write.revision = file.revision) (hwidth : ∀ code ∈ write.code, code.length = config.codeBytes)
    (hcodes : lookup file.entries = write.act (lookup w.file.entries)) :
    Inv config (w.commit i h file write) := by
  have hlog : (w.commit i h file write).log = w.log ++ [file] := rfl
  have hnumber := file_revision hw
  constructor
  · intro n tables hn
    rw [hlog] at hn
    by_cases hlt : n < w.log.length
    · rw [List.getElem?_append_left hlt] at hn
      exact hw.numbered n tables hn
    · rw [List.getElem?_append_right (by omega)] at hn
      have hlength : w.log.length = w.past.length + 1 := by simp [World.log]
      cases hd : n - w.log.length with
      | zero =>
        rw [hd] at hn
        cases hn
        omega
      | succ d =>
        rw [hd] at hn
        cases hn
  · intro tables hmem
    rw [hlog] at hmem
    rcases List.mem_append.mp hmem with hmem | hmem
    · exact hw.sound tables hmem
    · rw [List.mem_singleton.mp hmem]
      exact hsound
  · intro j other hother
    rw [hlog]
    simp only [World.commit, Function.update_apply] at hother
    split at hother
    · cases hother
      have ht := (hw.handles i h hi).append [file]
      refine ⟨ht.stride, ht.resident, ?_, ?_, ht.loading⟩
      · intro other hmem
        rcases List.mem_append.mp hmem with hmem | hmem
        · exact ht.writes other hmem
        · rw [List.mem_singleton.mp hmem, hwrite, hrevision, hnumber]
          have hmap : (w.log ++ [file]).map codesOf =
              w.past.map codesOf ++ [codesOf w.file] ++ [write.act (codesOf w.file)] := by
            simp [World.log, codesOf, hcodes]
          rw [hmap]
          have hlast := Wrote.last write.act_act (codesOf w.file) (w.past.map codesOf)
          rw [List.length_map] at hlast
          exact hlast
      · intro other hmem
        rcases List.mem_append.mp hmem with hmem | hmem
        · exact ht.widths other hmem
        · rw [List.mem_singleton.mp hmem]
          exact hwidth
    · exact (hw.handles j other hother).append _

omit [DecidableEq ι] in
theorem inv_init : Inv config (World.init : World ι) := by
  constructor
  · intro n tables hn
    have hlog : (World.init : World ι).log = [Tables.empty] := rfl
    rw [hlog, List.getElem?_singleton] at hn
    split at hn
    · cases hn
      exact (by assumption : n = 0).symm
    · cases hn
  · intro tables hmem
    have hempty : tables = Tables.empty := List.mem_singleton.mp hmem
    rw [hempty]
    refine ⟨List.nodup_nil, ?_⟩
    intro row hrow
    cases hrow
  · intro i h hi
    cases hi

omit [DecidableEq ι] in
/-- A handle at the revision of a version on the log holds the codes of that version. -/
theorem Handle.Tracks.answers {w : World ι} (hw : Inv config w) {h : Handle} (ht : h.Tracks config w.log)
    {seen : Tables} (hseen : seen ∈ w.log) (hsame : h.state.revision = seen.revision) :
    Resident h.state.codes seen := by
  have hversion := right_of_mem hw.numbered hseen
  have hresident := ht.resident
  rw [Right, hsame, hversion] at hresident
  exact resident_of_code (hw.sound seen hseen) (Option.some.inj hresident).symm

variable [F32 F]

/-- Every step that applies only near writes keeps the handles tracking the log. -/
theorem inv_step {w w' : World ι} {action : Action ι F} (hw : Inv config w) (hnear : Near w action)
    (h : step config w action = some w') : Inv config w' := by
  cases action with
  | «open» i =>
    obtain ⟨codes, hload, hstride, hcodes⟩ := loadCodes_sound (hw.sound w.file (by simp [World.log]))
    simp only [step, hload] at h
    split at h
    · rename_i hi hok
      cases hok
      cases h
      refine inv_setHandle hw ⟨hstride, ?_, by simp, by simp, by simp⟩
      rw [hcodes]
      exact right_of_mem hw.numbered (by simp [World.log])
    · cases h
  | upsert i faults stamp locator body embedding =>
    obtain ⟨handle, hi, h⟩ := Option.bind_eq_some_iff.mp h
    cases hcommit : commitUpsert config faults stamp w.file locator body embedding with
    | mk file result =>
      rw [hcommit] at h
      cases result with
      | error e =>
        cases h
        rw [commitUpsert_error hcommit]
        exact hw
      | ok write =>
        cases h
        obtain ⟨hsound, hrevision, hwrite, hwidth, hlookup⟩ :=
          commitUpsert_ok (hw.sound w.file (by simp [World.log])) hcommit
        exact inv_commit hw hi hsound hrevision hwrite hwidth hlookup
  | remove i faults locator =>
    obtain ⟨handle, hi, h⟩ := Option.bind_eq_some_iff.mp h
    cases hcommit : commitRemove faults w.file locator with
    | mk file result =>
      rw [hcommit] at h
      cases result with
      | error e =>
        cases h
        rw [show file = w.file from withTransaction_error hcommit]
        exact hw
      | ok removed =>
        have hwork := removeWork_ok (hw.sound w.file (by simp [World.log]))
          (sqlite_eq_ok (withTransaction_ok hcommit))
        rcases hwork with ⟨rfl, rfl⟩ | ⟨write, rfl, hsound, hrevision, hwrite, hset, hlookup⟩
        · cases h
          exact hw
        · cases h
          refine inv_commit hw hi hsound hrevision hwrite ?_ hlookup
          intro code hcode
          rw [hset] at hcode
          cases hcode
  | apply i n =>
    obtain ⟨handle, hi, h⟩ := Option.bind_eq_some_iff.mp h
    obtain ⟨write, hwrite, h⟩ := Option.bind_eq_some_iff.mp h
    cases h
    exact inv_setHandle hw ((hw.handles i handle hi).apply hwrite (hnear handle hi write hwrite))
  | search i =>
    obtain ⟨handle, hi, h⟩ := Option.bind_eq_some_iff.mp h
    have ht := hw.handles i handle hi
    split at h
    · cases h
      exact hw
    · cases h
      refine inv_setHandle hw ⟨ht.stride, ht.resident, ht.writes, ht.widths, ?_⟩
      intro seen hseen
      rcases List.mem_append.mp hseen with hseen | hseen
      · exact ht.loading seen hseen
      · rw [List.mem_singleton.mp hseen]
        simp [World.log]
  | install i n =>
    obtain ⟨handle, hi, h⟩ := Option.bind_eq_some_iff.mp h
    obtain ⟨seen, hget, h⟩ := Option.bind_eq_some_iff.mp h
    have ht := hw.handles i handle hi
    have hseen := ht.loading seen (List.mem_of_getElem? hget)
    obtain ⟨codes, hload, hstride, hcodes⟩ := loadCodes_sound (hw.sound seen hseen)
    rw [hload] at h
    cases h
    exact inv_setHandle hw (ht.install hw.numbered n hseen hstride hcodes)
  | abandon i n =>
    obtain ⟨handle, hi, h⟩ := Option.bind_eq_some_iff.mp h
    cases h
    have ht := hw.handles i handle hi
    refine inv_setHandle hw ⟨ht.stride, ht.resident, ht.writes, ht.widths, ?_⟩
    intro seen hseen
    exact ht.loading seen (List.mem_of_mem_eraseIdx hseen)

/-! ## What a search answers over -/

/-- A search that is synchronised has the codes of the version that it read. -/
def Answers (config : Meta F) (taken : World ι × Action ι F × World ι) : Prop :=
  ∀ search ∈ synced config taken, ∃ h ∈ taken.2.2.handles search.1, Resident h.state.codes search.2

theorem answers_step {w w' : World ι} {action : Action ι F} (hw : Inv config w) (hnear : Near w action)
    (h : step config w action = some w') : Answers config (w, action, w') := by
  have hw' := inv_step hw hnear h
  rintro ⟨i, seen⟩ hsynced
  cases action with
  | search j =>
    simp only [synced] at hsynced
    cases hi : w.handles j with
    | none =>
      rw [hi] at hsynced
      cases hsynced
    | some handle =>
      simp only [hi] at hsynced
      split at hsynced
      · rename_i hsame
        cases hsynced
        have hstay : w' = w := by
          simp only [step, hi] at h
          exact (Option.some.inj ((if_pos hsame).symm.trans h)).symm
        rw [hstay]
        exact ⟨handle, hi, (hw.handles i handle hi).answers hw (by simp [World.log]) hsame⟩
      · cases hsynced
  | install j n =>
    obtain ⟨handle, hi, h⟩ := Option.bind_eq_some_iff.mp h
    obtain ⟨version, hget, h⟩ := Option.bind_eq_some_iff.mp h
    have hversion := (hw.handles j handle hi).loading version (List.mem_of_getElem? hget)
    obtain ⟨codes, hload, -, -⟩ := loadCodes_sound (hw.sound version hversion)
    rw [hload] at h
    cases h
    simp only [synced, hi, Option.bind_some, hget, hload, Except.isOk, Except.toBool, if_true] at hsynced
    cases hsynced
    refine ⟨_, Function.update_self .., ?_⟩
    have ht := hw'.handles _ _ (Function.update_self ..)
    apply ht.answers hw' hversion
    unfold State.install
    split
    · assumption
    · rfl
  | «open» j => cases hsynced
  | upsert j faults stamp locator body embedding => cases hsynced
  | remove j faults locator => cases hsynced
  | apply j n => cases hsynced
  | abandon j n => cases hsynced

/-- In every run in which writes reach their handles near the revision they made, each search
answers over one code for each row that is committed when it reads the revision, and no other. -/
theorem search_answers_committed (config : Meta F) (actions : List (Action ι F))
    (hnear : ∀ taken ∈ trace (step config) World.init actions, Near taken.1 taken.2.1) :
    ∀ taken ∈ trace (step config) World.init actions, ∀ search ∈ synced config taken,
      ∃ h ∈ taken.2.2.handles search.1, Resident h.state.codes search.2 := by
  intro taken htaken
  obtain ⟨hw, hstep⟩ := trace_invariant_of Near (fun _ _ _ hs hkeep h => inv_step hs hkeep h) actions
    inv_init hnear htaken
  exact answers_step hw (hnear taken htaken) hstep

end

/-! ## A write that skips a revision -/

/-- The components zero and one. -/
inductive Component where
  | zero | one
  deriving DecidableEq, Repr

instance : F32 Component where
  gt a b := a = .one ∧ b = .zero
  leBytes a := if a = .one then #v[0, 0, 0x80, 0x3F] else #v[0, 0, 0, 0]
  fault vector :=
    if vector.count .one = 0 then some "every component is zero, so it has no direction"
    else if vector.count .one = 1 then none
    else some "magnitude is not unit length"

def eightDims : Meta Component where
  dims := 8
  threshold := List.replicate 8 .zero
  usable := by decide
  frozen := by decide

/-- The unit vector along one axis. -/
def axis (n : Nat) : List Component := (List.replicate 8 .zero).set n .one

/-- One handle writes `x`, the other one writes `y` and searches. -/
def skippingRun : List (Action Bool Component) :=
  [.open false, .open true,
    .upsert false Faults.none 0 ⟨"x", by decide⟩ ⟨"first", by decide⟩ (axis 0), .apply false 0,
    .upsert true Faults.none 0 ⟨"y", by decide⟩ ⟨"second", by decide⟩ (axis 1), .apply true 0,
    .search true]

instance (codes : CodeTable) (tables : Tables) : Decidable (Resident codes tables) :=
  inferInstanceAs (Decidable (List.Perm _ _))

/-- The second handle records the revision of its write and never loads the first one's entry. -/
theorem search_misses_committed :
    ¬ ∀ taken ∈ trace (step eightDims) World.init skippingRun, ∀ search ∈ synced eightDims taken,
      ∃ h ∈ taken.2.2.handles search.1, Resident h.state.codes search.2 := by
  decide +kernel

/-- The same calls with a search of the second handle before its write. -/
def loadingRun : List (Action Bool Component) :=
  [.open false, .open true,
    .upsert false Faults.none 0 ⟨"x", by decide⟩ ⟨"first", by decide⟩ (axis 0), .apply false 0,
    .search true, .install true 0,
    .upsert true Faults.none 0 ⟨"y", by decide⟩ ⟨"second", by decide⟩ (axis 1), .apply true 0,
    .search true]

instance (w : World ι) : (action : Action ι F) → Decidable (Near w action)
  | .apply i n => inferInstanceAs (Decidable (∀ h ∈ w.handles i, ∀ write ∈ h.writes[n]?, _))
  | .open _ => isTrue trivial
  | .upsert .. => isTrue trivial
  | .remove .. => isTrue trivial
  | .search _ => isTrue trivial
  | .install .. => isTrue trivial
  | .abandon .. => isTrue trivial

theorem search_answers_committed_loading :
    (∀ taken ∈ trace (step eightDims) World.init loadingRun, Near taken.1 taken.2.1) ∧
    ∀ taken ∈ trace (step eightDims) World.init loadingRun, ∀ search ∈ synced eightDims taken,
      ∃ h ∈ taken.2.2.handles search.1, Resident h.state.codes search.2 := by
  have hnear : ∀ taken ∈ trace (step eightDims) World.init loadingRun, Near taken.1 taken.2.1 := by
    decide +kernel
  exact ⟨hnear, search_answers_committed eightDims loadingRun hnear⟩

end SupraHarness.Vector
