import SupraHarness.Journal.Journal

/-!
# The undo under way

What holds at each call of an undo: until the rename it has touched nothing but
its private temporary file; from the rename on the target reads the snapshot's
bytes until another program changes it; and the mark lands on a live row only.
-/
namespace SupraHarness.Journal

open SupraHarness.Types SupraHarness.Store SupraHarness.Inodes

variable {blake3 : List UInt8 → ContentHash} {fs fs' : Fs Path Bytes} {rows rows' : List Row} {u u' : Undo}

/-! ## Paths -/

theorem length_join (directory : Path) (name : Bytes) :
    directory.length + name.length ≤ (join directory name).length := by
  unfold join
  split
  · simp
  · simp

theorem length_lastName_le (path : Path) : (lastName path).length ≤ path.length := by
  rw [lastName, List.length_reverse]
  have h := (List.takeWhile_prefix (fun b => decide (b ≠ separator)) (l := path.reverse)).length_le
  simpa using h

/-- The temporary file has a longer name in the same directory. -/
theorem length_temporaryPath (target : Path) (snapshot : SnapshotId) (attempt : Nat) :
    target.length < (temporaryPath target snapshot attempt).length := by
  have hhead : (utf8 ".supra-undo-").length = 12 := by decide
  have hjoin := length_join ((parent target).getD (utf8 "."))
    (utf8 ".supra-undo-" ++ utf8 snapshot.text ++ utf8 "-" ++ (fileName target).getD (utf8 "supra-restore") ++
      utf8 "-" ++ utf8 (toString attempt))
  simp only [List.length_append, hhead] at hjoin
  unfold temporaryPath
  by_cases hroot : target = [] ∨ target = [separator]
  · have hlen : target.length ≤ 1 := by
      rcases hroot with rfl | rfl
      · simp
      · simp
    omega
  · have hname := length_lastName_le target
    have hparent : target.length - (lastName target).length - 1 ≤ ((parent target).getD (utf8 ".")).length := by
      rw [parent, if_neg hroot, Option.getD_some]
      split
      · rw [List.length_take]
        omega
      · rw [List.length_dropLast, List.length_take]
        omega
    have hfile : (fileName target).getD (utf8 "supra-restore") = lastName target := by
      rw [fileName, if_neg hroot, Option.getD_some]
    rw [hfile] at hjoin ⊢
    omega

theorem temporaryPath_ne (target : Path) (snapshot : SnapshotId) (attempt : Nat) :
    temporaryPath target snapshot attempt ≠ target := by
  intro h
  have hlen := length_temporaryPath target snapshot attempt
  rw [h] at hlen
  exact Nat.lt_irrefl _ hlen

/-- A path that is text is stored without loss. -/
theorem bytes_of_pathText {path : Vec UInt8} {text : Str} (h : pathText path = some text) :
    text.bytes = path.toList := by
  unfold pathText at h
  split at h
  · cases h
    simp [Str.bytes, String.fromUTF8]
  · cases h

/-! ## The stages -/

/-- The refusals that the row alone decides. -/
def JournalError.Refusal : JournalError → Prop
  | .corrupt _ _ _ => True
  | .alreadyUndone _ => True
  | .notFound _ => True
  | _ => False

/-- A row of the snapshot holds what the undo restores, under the digest it had to have. -/
def Undo.From (blake3 : List UInt8 → ContentHash) (rows : List Row) (u : Undo) (undone : Bool) : Prop :=
  ∃ row ∈ rows, row.snapshot = u.snapshot ∧ row.undone = undone ∧ row.path.bytes = u.target ∧
    row.before = u.bytes ∧ row.beforeHash = (snapshotDigest blake3 u.bytes).bytes.toList

/-- The temporary file is private, and holds the content. -/
def Undo.Private (fs : Fs Path Bytes) (u : Undo) (content : Bytes → Prop) : Prop :=
  ∃ t, u.temporary = some t ∧ fs.Sole t.path t.ino ∧ content (fs.content t.ino)

def Undo.Stage (blake3 : List UInt8 → ContentHash) (fs : Fs Path Bytes) (rows : List Row) (u : Undo) : Prop :=
  match u.phase with
  | .begun => u.renamed = false ∧ u.temporary = none
  | .creating _ => u.renamed = false ∧ u.temporary = none ∧ u.From blake3 rows false
  | .writing => u.renamed = false ∧ u.From blake3 rows false ∧ u.Private fs fun _ => True
  | .syncing => u.renamed = false ∧ u.From blake3 rows false ∧ u.Private fs fun content => content = u.bytes
  | .replacing => u.renamed = false ∧ u.From blake3 rows false ∧ u.Private fs fun content => content = u.bytes
  | .flushing => u.renamed = true ∧ u.From blake3 rows false
  | .dropping (.ok ()) => u.renamed = true ∧ u.From blake3 rows false
  | .dropping (.error e) => ¬ e.Refusal ∧ u.From blake3 rows false
  | .marking => u.renamed = true ∧ u.From blake3 rows false
  | .committing changed => u.renamed = true ∧ u.From blake3 rows false ∧ changed = marked rows u.snapshot
  | .done (.ok ()) => u.renamed = true ∧ u.From blake3 rows true
  | .done (.error e) => e.Refusal → u.renamed = false ∧ u.temporary = none

structure Undo.Good (blake3 : List UInt8 → ContentHash) (fs : Fs Path Bytes) (rows : List Row) (u : Undo) :
    Prop where
  stage : u.Stage blake3 fs rows
  restored : u.renamed = true → u.edited = false → fs.read u.target = some u.bytes
  apart : ∀ t, u.temporary = some t → t.path ≠ u.target ∧
    ∀ row ∈ rows, row.snapshot = u.snapshot → row.path.bytes = u.target

/-- What a step of an undo does to the rest. -/
structure Undo.Advances (blake3 : List UInt8 → ContentHash) (fs : Fs Path Bytes) (rows : List Row) (u : Undo)
    (fs' : Fs Path Bytes) (rows' : List Row) (u' : Undo) : Prop where
  good : u'.Good blake3 fs' rows'
  call : u'.call = u.call
  snapshot : u'.snapshot = u.snapshot
  table : rows' = rows ∨ rows' = marked rows u.snapshot
  temporary : ∀ t, u.temporary = some t → u'.temporary = some t
  spares : u'.renamed = false → u.renamed = false ∧ rows' = rows ∧
    ∀ p, (∀ t, u'.temporary = some t → p ≠ t.path) → fs'.read p = fs.read p
  live : u'.phase = .done (.ok ()) → u.From blake3 rows false

/-- A step that only moves on. -/
theorem Undo.Advances.phase {phase : UndoPhase} (h : u.Good blake3 fs rows)
    (hstage : ({ u with phase := phase } : Undo).Stage blake3 fs rows) (hphase : phase ≠ .done (.ok ())) :
    u.Advances blake3 fs rows fs rows { u with phase := phase } where
  good := ⟨hstage, h.restored, h.apart⟩
  call := rfl
  snapshot := rfl
  table := .inl rfl
  temporary _ ht := ht
  spares hr := ⟨hr, rfl, fun _ _ => rfl⟩
  live he := absurd he hphase

/-- The row that an undo works from, if none refuses it. -/
theorem undoRow_eq_ok {fault : Option RusqliteError} {snapshot : SnapshotId} {bytes : Bytes} {target : Path}
    (h : undoRow blake3 fault rows snapshot = .ok (bytes, target)) :
    ∃ row ∈ rows, row.snapshot = snapshot ∧ row.undone = false ∧ row.path.bytes = target ∧ row.before = bytes ∧
      row.beforeHash = (snapshotDigest blake3 bytes).bytes.toList := by
  unfold undoRow at h
  cases hread : readRow fault rows snapshot with
  | error e =>
    rw [hread] at h
    cases h
  | ok found =>
    cases found with
    | none =>
      rw [hread] at h
      cases h
    | some found =>
      obtain ⟨before, stored, undone, path⟩ := found
      obtain ⟨row, hrow, hid, hbefore, hhash, hundone, hpath⟩ := readRow_eq_some hread
      rw [hread] at h
      dsimp only at h
      split at h
      · cases h
      · rename_i hlive
        split at h
        · cases h
        · rename_i hdigest
          cases h
          refine ⟨row, hrow, hid, hundone.trans (by simpa using hlive), ?_, hbefore, ?_⟩
          · rw [hpath]
          · rw [hhash, not_not.mp hdigest]

theorem readRow_advances {fault : Option RusqliteError} (h : u.Good blake3 fs rows)
    (hstep : u.step blake3 fs rows (.readRow fault) = some (fs', rows', u')) :
    u.Advances blake3 fs rows fs' rows' u' := by
  have hstage := h.stage
  unfold Undo.step at hstep
  unfold Undo.Stage at hstage
  cases hphase : u.phase with
  | begun =>
    rw [hphase] at hstep hstage
    dsimp only at hstep hstage
    cases hrow : undoRow blake3 fault rows u.snapshot with
    | error e =>
      rw [hrow] at hstep
      cases hstep
      exact .phase h (fun _ => hstage) (by simp)
    | ok found =>
      obtain ⟨bytes, target⟩ := found
      rw [hrow] at hstep
      cases hstep
      refine ⟨⟨⟨hstage.1, hstage.2, undoRow_eq_ok hrow⟩, ?_, ?_⟩, rfl, rfl, .inl rfl, fun _ ht => ht, ?_, ?_⟩
      · intro hr
        exact absurd (hstage.1.symm.trans hr) (by decide)
      · intro t ht
        exact absurd (hstage.2.symm.trans ht) (by simp)
      · intro hr
        exact ⟨hr, rfl, fun _ _ => rfl⟩
      · intro he
        cases he
  | _ =>
    rw [hphase] at hstep
    cases hstep

/-- Only one row is the snapshot's. -/
theorem Undo.From.path_eq {undone : Bool} (h : u.From blake3 rows undone) (hnodup : (rows.map (·.snapshot)).Nodup) :
    ∀ row ∈ rows, row.snapshot = u.snapshot → row.path.bytes = u.target := by
  intro row hrow hid
  obtain ⟨own, hown, hsnapshot, -, hpath, -⟩ := h
  have heq : row = own := List.inj_on_of_nodup_map hnodup hrow hown (hid.trans hsnapshot.symm)
  rw [heq, hpath]

theorem create_advances {fault : Option IoError} (h : u.Good blake3 fs rows)
    (hnodup : (rows.map (·.snapshot)).Nodup) (hstep : u.step blake3 fs rows (.create fault) = some (fs', rows', u')) :
    u.Advances blake3 fs rows fs' rows' u' := by
  have hstage := h.stage
  unfold Undo.step at hstep
  unfold Undo.Stage at hstage
  cases hphase : u.phase with
  | creating attempt =>
    rw [hphase] at hstep hstage
    obtain ⟨hrenamed, htemporary, hfrom⟩ := hstage
    have hretry : u.Advances blake3 fs rows fs rows { u with phase := .creating (attempt + 1) } :=
      .phase h ⟨hrenamed, htemporary, hfrom⟩ (by simp)
    have hfail : ∀ e : IoError, u.Advances blake3 fs rows fs rows { u with phase := .done (.error (.io e)) } :=
      fun e => .phase h (fun _ => ⟨hrenamed, htemporary⟩) (by simp)
    simp only [createTemporary] at hstep
    split at hstep
    · cases hstep
      exact hfail _
    · cases fault with
      | some error =>
        simp only at hstep
        split at hstep
        · cases hstep
          exact hretry
        · cases hstep
          exact hfail _
      | none =>
        simp only at hstep
        split at hstep
        · cases hstep
          refine ⟨⟨⟨hrenamed, hfrom, _, rfl, fs.sole_create _ _, trivial⟩, ?_, ?_⟩, rfl, rfl, .inl rfl, ?_, ?_, ?_⟩
          · intro hr
            exact absurd (hrenamed.symm.trans hr) (by decide)
          · intro t ht
            cases ht
            exact ⟨temporaryPath_ne _ _ _, hfrom.path_eq hnodup⟩
          · intro t ht
            exact absurd (htemporary.symm.trans ht) (by simp)
          · intro _
            refine ⟨hrenamed, rfl, ?_⟩
            intro p hp
            rw [Fs.read_create, if_neg (hp _ rfl)]
          · intro he
            cases he
        · cases hstep
          exact hretry
  | _ =>
    rw [hphase] at hstep
    cases hstep

theorem writeAll_advances {fault : Option (Nat × IoError)} (h : u.Good blake3 fs rows)
    (hstep : u.step blake3 fs rows (.writeAll fault) = some (fs', rows', u')) :
    u.Advances blake3 fs rows fs' rows' u' := by
  have hstage := h.stage
  unfold Undo.step at hstep
  unfold Undo.Stage at hstage
  cases hphase : u.phase with
  | writing =>
    rw [hphase] at hstep hstage
    obtain ⟨hrenamed, hfrom, t, ht, hsole, -⟩ := hstage
    rw [ht] at hstep
    have hadvances : ∀ (written : Bytes) (phase : UndoPhase), phase ≠ .done (.ok ()) →
        ({ u with phase := phase } : Undo).Stage blake3 (fs.write t.ino written) rows →
        u.Advances blake3 fs rows (fs.write t.ino written) rows { u with phase := phase } := by
      intro written phase hne hstage
      refine ⟨⟨hstage, ?_, h.apart⟩, rfl, rfl, .inl rfl, fun _ ht => ht, ?_, fun he => absurd he hne⟩
      · intro hr
        exact absurd (hrenamed.symm.trans hr) (by decide)
      · intro _
        refine ⟨hrenamed, rfl, ?_⟩
        intro p hp
        rw [hsole.read_write, if_neg (hp t ht)]
    cases fault with
    | some failure =>
      cases hstep
      rw [← ht]
      exact hadvances (u.bytes.take failure.1) (.dropping (.error (.io failure.2))) (by simp) ⟨id, hfrom⟩
    | none =>
      cases hstep
      rw [← ht]
      exact hadvances u.bytes .syncing (by simp) ⟨hrenamed, hfrom, t, ht, hsole, Function.update_self ..⟩
  | _ =>
    rw [hphase] at hstep
    cases hstep

theorem syncAll_advances {fault : Option IoError} (h : u.Good blake3 fs rows)
    (hstep : u.step blake3 fs rows (.syncAll fault) = some (fs', rows', u')) :
    u.Advances blake3 fs rows fs' rows' u' := by
  have hstage := h.stage
  unfold Undo.step at hstep
  unfold Undo.Stage at hstage
  cases hphase : u.phase with
  | syncing =>
    rw [hphase] at hstep hstage
    cases fault with
    | some error =>
      cases hstep
      exact .phase h ⟨id, hstage.2.1⟩ (by simp)
    | none =>
      cases hstep
      exact .phase h hstage (by simp)
  | _ =>
    rw [hphase] at hstep
    cases hstep

theorem rename_advances {fault : Option IoError} (h : u.Good blake3 fs rows)
    (hstep : u.step blake3 fs rows (.rename fault) = some (fs', rows', u')) :
    u.Advances blake3 fs rows fs' rows' u' := by
  have hstage := h.stage
  unfold Undo.step at hstep
  unfold Undo.Stage at hstage
  cases hphase : u.phase with
  | replacing =>
    rw [hphase] at hstep hstage
    obtain ⟨hrenamed, hfrom, t, ht, hsole, hcontent⟩ := hstage
    rw [ht] at hstep
    cases fault with
    | some error =>
      cases hstep
      rw [← ht]
      exact .phase h ⟨id, hfrom⟩ (by simp)
    | none =>
      simp only at hstep
      split at hstep
      · cases hstep
        rw [← ht]
        exact .phase h ⟨id, hfrom⟩ (by simp)
      · cases hstep
        rw [← ht]
        refine ⟨⟨⟨rfl, hfrom⟩, ?_, h.apart⟩, rfl, rfl, .inl rfl, fun _ ht => ht, ?_, ?_⟩
        · intro _ _
          rw [Fs.read_rename fs (h.apart t ht).1, if_pos rfl, hsole.read_eq, hcontent]
        · intro hr
          cases hr
        · intro he
          cases he
  | _ =>
    rw [hphase] at hstep
    cases hstep

theorem syncDirectory_advances {fault : Option IoError} (h : u.Good blake3 fs rows)
    (hstep : u.step blake3 fs rows (.syncDirectory fault) = some (fs', rows', u')) :
    u.Advances blake3 fs rows fs' rows' u' := by
  have hstage := h.stage
  unfold Undo.step at hstep
  unfold Undo.Stage at hstage
  cases hphase : u.phase with
  | flushing =>
    rw [hphase] at hstep hstage
    cases fault with
    | some error =>
      cases hstep
      exact .phase h ⟨id, hstage.2⟩ (by simp)
    | none =>
      cases hstep
      exact .phase h hstage (by simp)
  | _ =>
    rw [hphase] at hstep
    cases hstep

/-- The guard that goes out of scope removes the temporary file, which is not the target. -/
theorem removeFile_advances {removed : Bool} (h : u.Good blake3 fs rows)
    (hstep : u.step blake3 fs rows (.removeFile removed) = some (fs', rows', u')) :
    u.Advances blake3 fs rows fs' rows' u' := by
  have hstage := h.stage
  unfold Undo.step at hstep
  unfold Undo.Stage at hstage
  cases hphase : u.phase with
  | dropping outcome =>
    rw [hphase] at hstep hstage
    cases ht : u.temporary with
    | none =>
      rw [ht] at hstep
      cases hstep
    | some t =>
      rw [ht] at hstep
      simp only at hstep
      have hread : ∀ p, p ≠ t.path → (if removed then fs.remove t.path else fs).read p = fs.read p := by
        intro p hp
        split
        · rw [Fs.read_remove, if_neg hp]
        · rfl
      have hadvances : ∀ phase : UndoPhase, phase ≠ .done (.ok ()) →
          ({ u with phase := phase } : Undo).Stage blake3 (if removed then fs.remove t.path else fs) rows →
          u.Advances blake3 fs rows (if removed then fs.remove t.path else fs) rows { u with phase := phase } := by
        intro phase hne hstage
        refine ⟨⟨hstage, ?_, h.apart⟩, rfl, rfl, .inl rfl, fun _ ht => ht, ?_, fun he => absurd he hne⟩
        · intro hr he
          exact (hread _ (h.apart t ht).1.symm).trans (h.restored hr he)
        · intro hr
          exact ⟨hr, rfl, fun p hp => hread p (hp t ht)⟩
      cases outcome with
      | ok done =>
        cases hstep
        rw [← ht]
        exact hadvances .marking (by simp) hstage
      | error e =>
        cases hstep
        rw [← ht]
        exact hadvances (.done (.error e)) (by simp) fun he => absurd he hstage.1
  | _ =>
    rw [hphase] at hstep
    cases hstep

/-- The row is live under the lock, so that the mark finds it. -/
theorem markUndone_advances {fault : Option RusqliteError} (h : u.Good blake3 fs rows)
    (hnodup : (rows.map (·.snapshot)).Nodup)
    (hstep : u.step blake3 fs rows (.markUndone fault) = some (fs', rows', u')) :
    u.Advances blake3 fs rows fs' rows' u' := by
  have hstage := h.stage
  unfold Undo.step at hstep
  unfold Undo.Stage at hstage
  cases hphase : u.phase with
  | marking =>
    rw [hphase] at hstep hstage
    dsimp only at hstep
    obtain ⟨hrenamed, hfrom⟩ := hstage
    cases hmark : markUndone fault rows u.snapshot with
    | error e =>
      rw [hmark] at hstep
      cases hstep
      exact .phase h (fun he => absurd he id) (by simp)
    | ok found =>
      obtain ⟨changed, updated⟩ := found
      have hlive : updated = true ∧ changed = marked rows u.snapshot := by
        obtain ⟨row, hrow, hid, hlive, -⟩ := hfrom
        rw [← hid] at hmark ⊢
        exact markUndone_live hnodup hrow hlive hmark
      obtain ⟨rfl, rfl⟩ := hlive
      rw [hmark] at hstep
      cases hstep
      exact .phase h ⟨hrenamed, hfrom, rfl⟩ (by simp)
  | _ =>
    rw [hphase] at hstep
    cases hstep

theorem Undo.From.marked (h : u.From blake3 rows false) :
    u.From blake3 (marked rows u.snapshot) true := by
  obtain ⟨row, hrow, hid, hlive, hpath, hbefore, hhash⟩ := h
  refine ⟨{ row with undone := true }, ?_, hid, rfl, hpath, hbefore, hhash⟩
  rw [Journal.marked, List.mem_map]
  exact ⟨row, hrow, if_pos ⟨hid, hlive⟩⟩

theorem mem_marked {row : Row} {snapshot : SnapshotId} (h : row ∈ marked rows snapshot) :
    ∃ old ∈ rows, row.snapshot = old.snapshot ∧ row.path = old.path ∧ row.before = old.before ∧
      row.beforeHash = old.beforeHash ∧ (old.undone = true → row.undone = true) := by
  rw [marked, List.mem_map] at h
  obtain ⟨old, hold, rfl⟩ := h
  refine ⟨old, hold, ?_⟩
  split
  · exact ⟨rfl, rfl, rfl, rfl, fun _ => rfl⟩
  · exact ⟨rfl, rfl, rfl, rfl, id⟩

theorem commit_advances {fault : Option RusqliteError} (h : u.Good blake3 fs rows)
    (hstep : u.step blake3 fs rows (.commit fault) = some (fs', rows', u')) :
    u.Advances blake3 fs rows fs' rows' u' := by
  have hstage := h.stage
  unfold Undo.step at hstep
  unfold Undo.Stage at hstage
  cases hphase : u.phase with
  | committing changed =>
    rw [hphase] at hstep hstage
    obtain ⟨hrenamed, hfrom, rfl⟩ := hstage
    cases fault with
    | some error =>
      cases hstep
      exact .phase h (fun he => absurd he id) (by simp)
    | none =>
      cases hstep
      refine ⟨⟨⟨hrenamed, hfrom.marked⟩, h.restored, ?_⟩, rfl, rfl, .inr rfl, fun _ ht => ht, ?_, fun _ => hfrom⟩
      · intro t ht
        refine ⟨(h.apart t ht).1, ?_⟩
        intro row hrow hid
        obtain ⟨old, hold, hsnapshot, hpath, -⟩ := mem_marked hrow
        rw [hpath]
        exact (h.apart t ht).2 old hold (hsnapshot.symm.trans hid)
      · intro hr
        exact absurd (hrenamed.symm.trans hr) (by decide)
  | _ =>
    rw [hphase] at hstep
    cases hstep

theorem step_advances {s : UndoStep} (h : u.Good blake3 fs rows) (hnodup : (rows.map (·.snapshot)).Nodup)
    (hstep : u.step blake3 fs rows s = some (fs', rows', u')) : u.Advances blake3 fs rows fs' rows' u' := by
  cases s with
  | begins snapshot fault => cases hstep
  | readRow fault => exact readRow_advances h hstep
  | create fault => exact create_advances h hnodup hstep
  | writeAll fault => exact writeAll_advances h hstep
  | syncAll fault => exact syncAll_advances h hstep
  | rename fault => exact rename_advances h hstep
  | syncDirectory fault => exact syncDirectory_advances h hstep
  | removeFile removed => exact removeFile_advances h hstep
  | markUndone fault => exact markUndone_advances h hnodup hstep
  | commit fault => exact commit_advances h hstep
  | returns => cases hstep

/-- Another program edits files, but not the temporary one. -/
theorem Undo.Good.afterEdit {e : Edit Path Bytes} (h : u.Good blake3 fs rows)
    (howned : ∀ t, u.owned = some t → t.path ∉ e.paths) :
    (u.afterEdit fs (fs.edit e)).Good blake3 (fs.edit e) rows where
  stage := by
    have hstage := h.stage
    have hprivate : ∀ {content : Bytes → Prop}, (∀ t, u.temporary = some t → t.path ∉ e.paths) →
        u.Private fs content → u.Private (fs.edit e) content := by
      intro content howned hp
      obtain ⟨t, ht, hsole, hcontent⟩ := hp
      obtain ⟨hsole', heq⟩ := hsole.edit (howned t ht)
      exact ⟨t, ht, hsole', heq ▸ hcontent⟩
    unfold Undo.owned at howned
    unfold Undo.Stage at hstage ⊢
    simp only [Undo.afterEdit]
    cases hphase : u.phase with
    | writing =>
      rw [hphase] at hstage howned
      exact ⟨hstage.1, hstage.2.1, hprivate howned hstage.2.2⟩
    | syncing =>
      rw [hphase] at hstage howned
      exact ⟨hstage.1, hstage.2.1, hprivate howned hstage.2.2⟩
    | replacing =>
      rw [hphase] at hstage howned
      exact ⟨hstage.1, hstage.2.1, hprivate howned hstage.2.2⟩
    | dropping outcome =>
      rw [hphase] at hstage
      cases outcome with
      | ok done => exact hstage
      | error e => exact hstage
    | done outcome =>
      rw [hphase] at hstage
      cases outcome with
      | ok done => exact hstage
      | error e => exact hstage
    | _ =>
      rw [hphase] at hstage
      exact hstage
  restored := by
    intro hr he
    simp only [Undo.afterEdit] at hr he ⊢
    rw [hr, Bool.true_and, Bool.or_eq_false_iff, bne_eq_false_iff_eq] at he
    rw [he.2]
    exact h.restored hr he.1
  apart := h.apart

end SupraHarness.Journal
