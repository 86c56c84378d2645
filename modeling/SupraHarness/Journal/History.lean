import SupraHarness.Journal.Undo

/-!
# Runs of the journal

Every row comes from a snapshot that read its bytes while the path named the
file they were in, and every undo that succeeded marked its row. So an undo
that answers `Ok` leaves the file with the bytes it had when the snapshot was
taken, each snapshot is undone at most once, and an undo that fails before the
rename, or that the row refuses, has changed neither the rows nor the file.
-/
namespace SupraHarness.Journal

open SupraHarness.Types SupraHarness.Store SupraHarness.Inodes SupraHarness.Run

/-- A step of a run: the state before it, the action, the state after it. -/
abbrev Step := World × Act × World

variable {blake3 : List UInt8 → ContentHash} {w w' : World} {hist : List Step}

/-! ## Steps -/

/-- What a step starts from, and the state it leaves. -/
inductive Steps (blake3 : List UInt8 → ContentHash) (w : World) : Act → World → Prop where
  | snapshot {call : Nat} {s : SnapshotStep} {c : SnapshotCall} (hc : (w.calls call).step w.fs s = some c) :
      Steps blake3 w (.snapshot call s) (w.setCall call c)
  | refused {call : Nat} {faults : Faults} {generated : SnapshotId} (e : JournalError) (hidle : w.undo = none) :
      Steps blake3 w (.snapshot call (.withTransaction faults generated)) (w.setCall call (.answered (.error e)))
  | inserted {call : Nat} {faults : Faults} {row : Row} (hcall : w.calls call = .ready row.path row.before)
      (hidle : w.undo = none) (hfresh : row.snapshot ∉ w.rows.map (·.snapshot))
      (hhash : row.beforeHash = (snapshotDigest blake3 row.before).bytes.toList)
      (hdate : row.createdAt = i64OrMax row.snapshot.timestampMs.toNat) (hlive : row.undone = false) :
      Steps blake3 w (.snapshot call (.withTransaction faults row.snapshot))
        ({ w with rows := w.rows ++ [row] }.setCall call (.answered (.ok row.snapshot)))
  | begins {snapshot : SnapshotId} {fault : Option RusqliteError} {phase : UndoPhase} (hidle : w.undo = none)
      (hphase : phase = .begun ∨ ∃ e, phase = .done (.error e)) :
      Steps blake3 w (.undo (.begins snapshot fault))
        { w with undo := some ⟨w.undos, snapshot, [], [], none, phase, false, false⟩, undos := w.undos + 1 }
  | returns {u : Undo} {outcome : Except JournalError Unit} (hu : w.undo = some u) (hdone : u.phase = .done outcome) :
      Steps blake3 w (.undo .returns) { w with undo := none }
  | undo {s : UndoStep} {u u' : Undo} {fs : Fs Path Bytes} {rows : List Row} (hu : w.undo = some u)
      (hs : u.step blake3 w.fs w.rows s = some (fs, rows, u')) :
      Steps blake3 w (.undo s) { w with fs := fs, rows := rows, undo := some u' }
  | edit {e : Edit Path Bytes} (howned : ∀ t, w.undo.bind (·.owned) = some t → t.path ∉ e.paths) :
      Steps blake3 w (.edit e)
        { w with fs := w.fs.edit e, undo := w.undo.map (·.afterEdit w.fs (w.fs.edit e)) }
  | damage {snapshot : SnapshotId} {before : Bytes} (hidle : w.undo = none) :
      Steps blake3 w (.damage snapshot before) { w with rows := damaged w.rows snapshot before }
  | kill : Steps blake3 w .kill { w with calls := fun call => (w.calls call).kill, undo := none }

theorem withTransaction_cases {call : Nat} {faults : Faults} {generated : SnapshotId}
    (hstep : step blake3 w (.snapshot call (.withTransaction faults generated)) = some w') :
    Steps blake3 w (.snapshot call (.withTransaction faults generated)) w' := by
  unfold step at hstep
  dsimp only at hstep
  split at hstep
  · rename_i path bytes hcall hu
    generalize hrun : withTransaction faults JournalError.sqlite w.rows _ = answer at hstep
    obtain ⟨rows, outcome⟩ := answer
    cases hstep
    cases outcome with
    | error e =>
      obtain rfl := withTransaction_error hrun
      exact .refused e hu
    | ok answered =>
      have hwork := withTransaction_ok hrun
      cases hinsert : insert faults w.rows generated path bytes (snapshotDigest blake3 bytes) with
      | error e =>
        rw [hinsert] at hwork
        cases hwork
      | ok inserted =>
        rw [hinsert] at hwork
        cases hwork
        obtain ⟨rfl, hfresh⟩ := insert_eq_ok hinsert
        exact @Steps.inserted blake3 w call faults ⟨generated, path, bytes, _, _, _, false⟩ hcall hu hfresh rfl rfl rfl
  · cases hstep

theorem step_cases {a : Act} (hstep : step blake3 w a = some w') : Steps blake3 w a w' := by
  cases a with
  | snapshot call s =>
    cases s with
    | withTransaction faults generated => exact withTransaction_cases hstep
    | _ =>
      obtain ⟨c, hc, rfl⟩ := Option.map_eq_some_iff.mp hstep
      exact .snapshot hc
  | undo s =>
    unfold step at hstep
    cases hu : w.undo with
    | none =>
      rw [hu] at hstep
      cases s with
      | begins snapshot fault =>
        cases hstep
        refine .begins hu ?_
        cases fault with
        | none => exact Or.inl rfl
        | some e => exact Or.inr ⟨_, rfl⟩
      | _ => cases hstep
    | some u =>
      rw [hu] at hstep
      cases s with
      | begins snapshot fault => cases hstep
      | returns =>
        obtain ⟨number, snapshot, bytes, target, temporary, phase, renamed, edited⟩ := u
        cases phase with
        | done outcome =>
          cases hstep
          exact .returns hu rfl
        | _ => cases hstep
      | _ =>
        obtain ⟨⟨fs, rows, u'⟩, hs, rfl⟩ := Option.map_eq_some_iff.mp hstep
        exact .undo hu hs
  | edit e =>
    unfold step at hstep
    dsimp only at hstep
    split at hstep
    · rename_i howned
      cases hstep
      exact .edit howned
    · cases hstep
  | damage snapshot before =>
    unfold step at hstep
    dsimp only at hstep
    split at hstep
    · cases hstep
    · rename_i hu
      cases hstep
      exact .damage hu
  | kill =>
    cases hstep
    exact .kill

/-! ## What a run shows -/

/-- A call finds that the path names the inode. -/
def Identifies (call ino : Nat) (path : Path) (s : Step) : Prop :=
  (∃ fault, s.2.1 = .snapshot call (.symlinkMetadata fault)) ∧ s.1.fs.names path = some (.file ino)

def Reads (call ino : Nat) (bytes : Bytes) (s : Step) : Prop :=
  (∃ fault, s.2.1 = .snapshot call (.readToEnd fault)) ∧ s.1.fs.content ino = bytes

/-- A call finds that the path still names the inode. -/
def Reidentifies (call ino : Nat) (path : Path) (s : Step) : Prop :=
  (∃ fault, s.2.1 = .snapshot call (.symlinkMetadataAfter fault)) ∧ s.1.fs.names path = some (.file ino)

/-- A call commits its row and answers the snapshot. -/
def Commits (call : Nat) (snapshot : SnapshotId) (s : Step) : Prop :=
  (∃ faults, s.2.1 = .snapshot call (.withTransaction faults snapshot)) ∧
    s.2.2.calls call = .answered (.ok snapshot)

/-- The bytes that the file at the path had when the snapshot was taken. -/
def Took (hist : List Step) (call : Nat) (snapshot : SnapshotId) (path : Path) (bytes : Bytes) : Prop :=
  ∃ ino s₁ s₂ s₃ s₄, [s₁, s₂, s₃, s₄].Sublist hist ∧ Identifies call ino path s₁ ∧ Reads call ino bytes s₂ ∧
    Reidentifies call ino path s₃ ∧ Commits call snapshot s₄

/-- A step of one undo. -/
def OfUndo (call : Nat) (s : Step) : Prop :=
  (∃ step, s.2.1 = .undo step) ∧ ∃ u, s.2.2.undo = some u ∧ u.call = call

/-- The step changed neither the rows nor what a path reads, but for the temporary file. -/
def Spares (temporary : Option Temporary) (s : Step) : Prop :=
  s.2.2.rows = s.1.rows ∧ ∀ p, (∀ t, temporary = some t → p ≠ t.path) → s.2.2.fs.read p = s.1.fs.read p

/-- The snapshot whose undo returns `Ok` at this step. -/
def succeeded (s : Step) : Option SnapshotId :=
  match s.2.1, s.1.undo with
  | .undo .returns, some ⟨_, snapshot, _, _, _, .done (.ok ()), _, _⟩ => some snapshot
  | _, _ => none

def Undamaged (hist : List Step) (snapshot : SnapshotId) : Prop :=
  ∀ s ∈ hist, ∀ before, s.2.1 ≠ .damage snapshot before

/-! ## The invariant -/

/-- What a call has done so far is in the history. -/
def Backed (hist : List Step) (call : Nat) : SnapshotCall → Prop
  | .identified _ ino path => ∃ s₁, [s₁].Sublist hist ∧ Identifies call ino path.toList s₁
  | .read _ ino path bytes => ∃ s₁ s₂, [s₁, s₂].Sublist hist ∧ Identifies call ino path.toList s₁ ∧
      Reads call ino bytes s₂
  | .ready path bytes => ∃ ino s₁ s₂ s₃, [s₁, s₂, s₃].Sublist hist ∧ Identifies call ino path.bytes s₁ ∧
      Reads call ino bytes s₂ ∧ Reidentifies call ino path.bytes s₃
  | _ => True

/-- A row holds what its snapshot took, unless it was damaged, under the digest of what it took. -/
def Genuine (blake3 : List UInt8 → ContentHash) (hist : List Step) (row : Row) : Prop :=
  ∃ call original, Took hist call row.snapshot row.path.bytes original ∧
    row.beforeHash = (snapshotDigest blake3 original).bytes.toList ∧
    (Undamaged hist row.snapshot → row.before = original)

structure Inv (blake3 : List UInt8 → ContentHash) (w : World) (hist : List Step) : Prop where
  nodup : (w.rows.map (·.snapshot)).Nodup
  rows : ∀ row ∈ w.rows, Genuine blake3 hist row
  calls : ∀ call, Backed hist call (w.calls call)
  good : ∀ u, w.undo = some u → u.Good blake3 w.fs w.rows
  spares : ∀ u, w.undo = some u → u.renamed = false → ∀ s ∈ hist, OfUndo u.call s → Spares u.temporary s
  numbered : ∀ s ∈ hist, ∀ call, OfUndo call s → call < w.undos
  under : ∀ u, w.undo = some u → u.call < w.undos
  once : (hist.filterMap succeeded).Nodup
  undone : ∀ snapshot ∈ hist.filterMap succeeded, ∃ row ∈ w.rows, row.snapshot = snapshot ∧ row.undone = true
  fresh : ∀ u, w.undo = some u → u.phase = .done (.ok ()) → u.snapshot ∉ hist.filterMap succeeded

/-! ## What stays as the history grows -/

theorem Took.mono {call : Nat} {snapshot : SnapshotId} {path : Path} {bytes : Bytes} {more : List Step}
    (h : Took hist call snapshot path bytes) : Took (hist ++ more) call snapshot path bytes := by
  obtain ⟨ino, s₁, s₂, s₃, s₄, hsub, h⟩ := h
  exact ⟨ino, s₁, s₂, s₃, s₄, hsub.trans (List.sublist_append_left ..), h⟩

theorem Backed.mono {call : Nat} {c : SnapshotCall} {more : List Step} (h : Backed hist call c) :
    Backed (hist ++ more) call c := by
  cases c with
  | identified path ino resolved =>
    obtain ⟨s₁, hsub, h⟩ := h
    exact ⟨s₁, hsub.trans (List.sublist_append_left ..), h⟩
  | read path ino resolved bytes =>
    obtain ⟨s₁, s₂, hsub, h⟩ := h
    exact ⟨s₁, s₂, hsub.trans (List.sublist_append_left ..), h⟩
  | ready path bytes =>
    obtain ⟨ino, s₁, s₂, s₃, hsub, h⟩ := h
    exact ⟨ino, s₁, s₂, s₃, hsub.trans (List.sublist_append_left ..), h⟩
  | _ => exact trivial

theorem Genuine.mono {row : Row} {more : List Step} (h : Genuine blake3 hist row) :
    Genuine blake3 (hist ++ more) row := by
  obtain ⟨call, original, htook, hhash, hbefore⟩ := h
  refine ⟨call, original, htook.mono, hhash, ?_⟩
  intro hundamaged
  apply hbefore
  intro s hs
  exact hundamaged s (List.mem_append_left _ hs)

/-- A row that only changed its mark. -/
theorem Genuine.congr {row row' : Row} (h : Genuine blake3 hist row) (hsnapshot : row'.snapshot = row.snapshot)
    (hpath : row'.path = row.path) (hbefore : row'.before = row.before) (hhash : row'.beforeHash = row.beforeHash) :
    Genuine blake3 hist row' := by
  unfold Genuine
  rw [hsnapshot, hpath, hbefore, hhash]
  exact h

/-- A step that is no undo's. -/
theorem Inv.outside {a : Act} (h : Inv blake3 w hist) (hact : ∀ s, a ≠ .undo s) (hundos : w'.undos = w.undos)
    (hnodup : (w'.rows.map (·.snapshot)).Nodup) (hrows : ∀ row ∈ w'.rows, Genuine blake3 (hist ++ [(w, a, w')]) row)
    (hundone : ∀ row ∈ w.rows, row.undone = true →
      ∃ row' ∈ w'.rows, row'.snapshot = row.snapshot ∧ row'.undone = true)
    (hcalls : ∀ call, Backed (hist ++ [(w, a, w')]) call (w'.calls call))
    (hundo : ∀ u', w'.undo = some u' → ∃ u, w.undo = some u ∧ u'.call = u.call ∧ u'.snapshot = u.snapshot ∧
      u'.renamed = u.renamed ∧ u'.temporary = u.temporary ∧ u'.phase = u.phase ∧ u'.Good blake3 w'.fs w'.rows) :
    Inv blake3 w' (hist ++ [(w, a, w')]) := by
  have hof : ∀ call, ¬ OfUndo call (w, a, w') := by
    rintro call ⟨⟨s, hs⟩, -⟩
    exact hact s hs
  have hnone : succeeded (w, a, w') = none := by
    unfold succeeded
    split
    · rename_i hs _
      exact absurd hs (hact _)
    · rfl
  have hsucceeded : (hist ++ [(w, a, w')]).filterMap succeeded = hist.filterMap succeeded := by
    rw [List.filterMap_append]
    simp [hnone]
  constructor
  · exact hnodup
  · exact hrows
  · exact hcalls
  · intro u' hu'
    obtain ⟨u, -, -, -, -, -, -, hgood⟩ := hundo u' hu'
    exact hgood
  · intro u' hu' hr s hs hofs
    obtain ⟨u, hu, hcall, -, hrenamed, htemporary, -⟩ := hundo u' hu'
    rw [hcall] at hofs
    rw [htemporary]
    rcases List.mem_append.mp hs with hs | hs
    · exact h.spares u hu (hrenamed.symm.trans hr) s hs hofs
    · rw [List.mem_singleton] at hs
      exact absurd (hs ▸ hofs) (hof _)
  · intro s hs call hofs
    rw [hundos]
    rcases List.mem_append.mp hs with hs | hs
    · exact h.numbered s hs call hofs
    · rw [List.mem_singleton] at hs
      exact absurd (hs ▸ hofs) (hof _)
  · intro u' hu'
    obtain ⟨u, hu, hcall, -⟩ := hundo u' hu'
    rw [hcall, hundos]
    exact h.under u hu
  · rw [hsucceeded]
    exact h.once
  · rw [hsucceeded]
    intro snapshot hsnapshot
    obtain ⟨row, hrow, hid, hmark⟩ := h.undone snapshot hsnapshot
    obtain ⟨row', hrow', hid', hmark'⟩ := hundone row hrow hmark
    exact ⟨row', hrow', hid'.trans hid, hmark'⟩
  · rw [hsucceeded]
    intro u' hu' hdone
    obtain ⟨u, hu, -, hsnapshot, -, -, hphase, -⟩ := hundo u' hu'
    rw [hsnapshot]
    exact h.fresh u hu (hphase.symm.trans hdone)

/-- A step that is no undo's and leaves the rows and the undo under way alone. -/
theorem Inv.quiet {a : Act} (h : Inv blake3 w hist) (hact : ∀ s, a ≠ .undo s) (hundos : w'.undos = w.undos)
    (hrows : w'.rows = w.rows) (hcalls : ∀ call, Backed (hist ++ [(w, a, w')]) call (w'.calls call))
    (hundo : ∀ u', w'.undo = some u' → ∃ u, w.undo = some u ∧ u'.call = u.call ∧ u'.snapshot = u.snapshot ∧
      u'.renamed = u.renamed ∧ u'.temporary = u.temporary ∧ u'.phase = u.phase ∧ u'.Good blake3 w'.fs w'.rows) :
    Inv blake3 w' (hist ++ [(w, a, w')]) := by
  apply h.outside hact hundos _ _ _ hcalls hundo
  · rw [hrows]
    exact h.nodup
  · rw [hrows]
    intro row hrow
    exact (h.rows row hrow).mono
  · rw [hrows]
    intro row hrow hmark
    exact ⟨row, hrow, rfl, hmark⟩

theorem Inv.calls_mono {more : List Step} (h : Inv blake3 w hist) (call : Nat) :
    Backed (hist ++ more) call (w.calls call) :=
  (h.calls call).mono

/-! ## Snapshots -/

theorem sameIdentity_eq_ok {fs : Fs Path Bytes} {path : Path} {ino : Nat} {resolved : Vec UInt8}
    {fault : Option IoError} (h : sameIdentity fs path ino resolved fault = .ok ()) :
    fs.names resolved.toList = some (.file ino) := by
  unfold sameIdentity at h
  cases fault with
  | some e => cases h
  | none =>
    cases hname : fs.names resolved.toList with
    | none =>
      rw [hname] at h
      cases h
    | some entry =>
      rw [hname] at h
      simp only at h
      split at h
      · rename_i he
        rw [he]
      · cases h

/-- A step of a snapshot adds what it has seen to what the history shows of it. -/
theorem SnapshotCall.step_backed {call : Nat} {s : SnapshotStep} {c : SnapshotCall}
    (h : Backed hist call (w.calls call)) (hstep : (w.calls call).step w.fs s = some c) (w' : World) :
    Backed (hist ++ [(w, .snapshot call s, w')]) call c := by
  cases hc : w.calls call with
  | idle =>
    rw [hc] at hstep
    cases s with
    | opens path found =>
      cases found with
      | error e =>
        cases hstep
        exact trivial
      | ok found =>
        simp only [SnapshotCall.step] at hstep
        split at hstep
        · split at hstep
          · cases hstep
            exact trivial
          · cases hstep
        · cases hstep
          exact trivial
    | _ => cases hstep
  | opened path ino =>
    rw [hc] at hstep
    cases s with
    | canonicalize found =>
      cases found with
      | error e =>
        cases hstep
        exact trivial
      | ok resolved =>
        cases hstep
        exact trivial
    | _ => cases hstep
  | resolved path ino resolved =>
    rw [hc] at hstep
    cases s with
    | symlinkMetadata fault =>
      cases hsame : sameIdentity w.fs path ino resolved fault with
      | error e =>
        simp only [SnapshotCall.step, hsame] at hstep
        cases hstep
        exact trivial
      | ok done =>
        simp only [SnapshotCall.step, hsame] at hstep
        cases hstep
        exact ⟨_, List.sublist_append_right .., ⟨fault, rfl⟩, sameIdentity_eq_ok hsame⟩
    | _ => cases hstep
  | identified path ino resolved =>
    rw [hc] at hstep h
    cases s with
    | readToEnd fault =>
      cases fault with
      | some e =>
        cases hstep
        exact trivial
      | none =>
        cases hstep
        obtain ⟨s₁, hsub, h₁⟩ := h
        exact ⟨s₁, _, hsub.append (List.Sublist.refl _), h₁, ⟨none, rfl⟩, rfl⟩
    | _ => cases hstep
  | read path ino resolved bytes =>
    rw [hc] at hstep h
    cases s with
    | symlinkMetadataAfter fault =>
      cases hsame : sameIdentity w.fs path ino resolved fault with
      | error e =>
        simp only [SnapshotCall.step, hsame] at hstep
        cases hstep
        exact trivial
      | ok done =>
        cases htext : pathText resolved with
        | none =>
          simp only [SnapshotCall.step, hsame, htext] at hstep
          cases hstep
          exact trivial
        | some text =>
          simp only [SnapshotCall.step, hsame, htext] at hstep
          cases hstep
          obtain ⟨s₁, s₂, hsub, h₁, h₂⟩ := h
          refine ⟨ino, s₁, s₂, _, hsub.append (List.Sublist.refl _), ?_, h₂, ⟨fault, rfl⟩, ?_⟩
          · rw [bytes_of_pathText htext]
            exact h₁
          · rw [bytes_of_pathText htext]
            exact sameIdentity_eq_ok hsame
    | _ => cases hstep
  | _ =>
    rw [hc] at hstep
    cases s <;> cases hstep

/-- What every undo keeps of itself when another's step leaves it alone. -/
theorem Inv.undo_same (h : Inv blake3 w hist) {u : Undo} (hu : w.undo = some u) :
    ∃ u₀, w.undo = some u₀ ∧ u.call = u₀.call ∧ u.snapshot = u₀.snapshot ∧ u.renamed = u₀.renamed ∧
      u.temporary = u₀.temporary ∧ u.phase = u₀.phase ∧ u.Good blake3 w.fs w.rows :=
  ⟨u, hu, rfl, rfl, rfl, rfl, rfl, h.good u hu⟩

theorem Inv.setCall_backed {call : Nat} {c : SnapshotCall} {more : List Step} (h : Inv blake3 w hist)
    (hback : Backed (hist ++ more) call c) (other : Nat) :
    Backed (hist ++ more) other ((w.setCall call c).calls other) := by
  simp only [World.setCall, Function.update_apply]
  split
  · rename_i he
    rw [he]
    exact hback
  · exact h.calls_mono other

theorem snapshot_inv {call : Nat} {s : SnapshotStep} {c : SnapshotCall} (h : Inv blake3 w hist)
    (hstep : (w.calls call).step w.fs s = some c) :
    Inv blake3 (w.setCall call c) (hist ++ [(w, .snapshot call s, w.setCall call c)]) := by
  apply h.quiet (by simp)
  · rfl
  · rfl
  · exact h.setCall_backed (SnapshotCall.step_backed (h.calls call) hstep _)
  · intro u hu
    exact h.undo_same hu

theorem refused_inv {call : Nat} {faults : Faults} {generated : SnapshotId} {e : JournalError}
    (h : Inv blake3 w hist) (hidle : w.undo = none) :
    Inv blake3 (w.setCall call (.answered (.error e)))
      (hist ++ [(w, .snapshot call (.withTransaction faults generated), w.setCall call (.answered (.error e)))]) := by
  apply h.quiet (by simp)
  · rfl
  · rfl
  · exact h.setCall_backed trivial
  · intro u hu
    rw [show w.undo = some u from hu] at hidle
    cases hidle

/-- The row that a snapshot commits is the row of what it read. -/
theorem inserted_inv {call : Nat} {faults : Faults} {row : Row} (h : Inv blake3 w hist)
    (hcall : w.calls call = .ready row.path row.before) (hidle : w.undo = none)
    (hfresh : row.snapshot ∉ w.rows.map (·.snapshot))
    (hhash : row.beforeHash = (snapshotDigest blake3 row.before).bytes.toList) :
    Inv blake3 ({ w with rows := w.rows ++ [row] }.setCall call (.answered (.ok row.snapshot)))
      (hist ++ [(w, .snapshot call (.withTransaction faults row.snapshot),
        { w with rows := w.rows ++ [row] }.setCall call (.answered (.ok row.snapshot)))]) := by
  apply h.outside (by simp)
  · rfl
  · simp only [World.setCall, List.map_append, List.map_singleton]
    rw [List.nodup_append_comm, List.singleton_append, List.nodup_cons]
    exact ⟨hfresh, h.nodup⟩
  · intro other hother
    rcases List.mem_append.mp hother with hother | hother
    · exact (h.rows other hother).mono
    · rw [List.mem_singleton] at hother
      subst hother
      have hback := h.calls call
      rw [hcall] at hback
      obtain ⟨ino, s₁, s₂, s₃, hsub, h₁, h₂, h₃⟩ := hback
      refine ⟨call, _, ⟨ino, s₁, s₂, s₃, _, hsub.append (List.Sublist.refl _), h₁, h₂, h₃, ⟨faults, rfl⟩, ?_⟩,
        hhash, fun _ => rfl⟩
      exact Function.update_self ..
  · intro other hother hmark
    exact ⟨other, List.mem_append_left _ hother, rfl, hmark⟩
  · exact h.setCall_backed trivial
  · intro u hu
    rw [show w.undo = some u from hu] at hidle
    cases hidle

/-! ## Edits, damage and the end of the process -/

theorem edit_inv {e : Edit Path Bytes} (h : Inv blake3 w hist)
    (howned : ∀ t, w.undo.bind (·.owned) = some t → t.path ∉ e.paths)
    (hedited : w' = { w with fs := w.fs.edit e, undo := w.undo.map (·.afterEdit w.fs (w.fs.edit e)) }) :
    Inv blake3 w' (hist ++ [(w, .edit e, w')]) := by
  subst hedited
  apply h.quiet (by simp)
  · rfl
  · rfl
  · intro call
    exact h.calls_mono call
  · intro u' hu'
    obtain ⟨u, hu, rfl⟩ := Option.map_eq_some_iff.mp hu'
    refine ⟨u, hu, rfl, rfl, rfl, rfl, rfl, (h.good u hu).afterEdit ?_⟩
    intro t ht
    apply howned
    rw [hu]
    exact ht

theorem mem_damaged {rows : List Row} {snapshot : SnapshotId} {before : Bytes} {row : Row}
    (h : row ∈ damaged rows snapshot before) : ∃ old ∈ rows, row.snapshot = old.snapshot ∧ row.path = old.path ∧
      row.beforeHash = old.beforeHash ∧ row.undone = old.undone ∧ (row.snapshot ≠ snapshot → row.before = old.before) := by
  rw [damaged, List.mem_map] at h
  obtain ⟨old, hold, rfl⟩ := h
  refine ⟨old, hold, ?_⟩
  split
  · rename_i hsame
    exact ⟨rfl, rfl, rfl, rfl, fun hne => absurd hsame.1 hne⟩
  · exact ⟨rfl, rfl, rfl, rfl, fun _ => rfl⟩

theorem snapshots_damaged (rows : List Row) (snapshot : SnapshotId) (before : Bytes) :
    (damaged rows snapshot before).map (·.snapshot) = rows.map (·.snapshot) := by
  rw [damaged, List.map_map]
  apply List.map_congr_left
  intro row _
  simp only [Function.comp]
  split <;> rfl

theorem damage_inv {snapshot : SnapshotId} {before : Bytes} (h : Inv blake3 w hist) (hidle : w.undo = none) :
    Inv blake3 { w with rows := damaged w.rows snapshot before }
      (hist ++ [(w, .damage snapshot before, { w with rows := damaged w.rows snapshot before })]) := by
  apply h.outside (by simp)
  · rfl
  · rw [snapshots_damaged]
    exact h.nodup
  · intro row hrow
    obtain ⟨old, hold, hsnapshot, hpath, hhash, -, hbefore⟩ := mem_damaged hrow
    obtain ⟨call, original, htook, hdigest, horiginal⟩ := h.rows old hold
    refine ⟨call, original, ?_, hhash.trans hdigest, ?_⟩
    · rw [hsnapshot, hpath]
      exact htook.mono
    · intro hundamaged
      have hne : row.snapshot ≠ snapshot := by
        intro he
        exact hundamaged _ (List.mem_append_right _ (List.mem_singleton_self _)) before (by rw [he])
      rw [hbefore hne]
      apply horiginal
      intro s hs
      rw [← hsnapshot]
      exact hundamaged s (List.mem_append_left _ hs)
  · intro row hrow hmark
    refine ⟨_, List.mem_map_of_mem hrow, ?_, ?_⟩
    · split <;> rfl
    · split
      · exact hmark
      · exact hmark
  · intro call
    exact h.calls_mono call
  · intro u hu
    rw [show w.undo = some u from hu] at hidle
    cases hidle

theorem kill_inv (h : Inv blake3 w hist) :
    Inv blake3 { w with calls := fun call => (w.calls call).kill, undo := none }
      (hist ++ [(w, .kill, { w with calls := fun call => (w.calls call).kill, undo := none })]) := by
  apply h.quiet (by simp)
  · rfl
  · rfl
  · intro call
    simp only
    cases w.calls call <;> exact trivial
  · intro u' hu'
    cases hu'

/-! ## Undos -/

theorem begins_inv {snapshot : SnapshotId} {fault : Option RusqliteError} {phase : UndoPhase}
    (h : Inv blake3 w hist) (hphase : phase = .begun ∨ ∃ e, phase = .done (.error e))
    (hbegun : w' = { w with
      undo := some ⟨w.undos, snapshot, [], [], none, phase, false, false⟩, undos := w.undos + 1 }) :
    Inv blake3 w' (hist ++ [(w, .undo (.begins snapshot fault), w')]) := by
  subst hbegun
  have hsucceeded : ∀ w' : World, (hist ++ [(w, Act.undo (.begins snapshot fault), w')]).filterMap succeeded =
      hist.filterMap succeeded := by
    intro w'
    rw [List.filterMap_append]
    simp [succeeded]
  constructor
  · exact h.nodup
  · intro row hrow
    exact (h.rows row hrow).mono
  · intro call
    exact h.calls_mono call
  · intro u' hu'
    cases hu'
    refine ⟨?_, ?_, ?_⟩
    · rcases hphase with rfl | ⟨e, rfl⟩
      · exact ⟨rfl, rfl⟩
      · exact fun _ => ⟨rfl, rfl⟩
    · intro hr
      cases hr
    · intro t ht
      cases ht
  · intro u' hu' _ s hs hofs
    cases hu'
    rcases List.mem_append.mp hs with hs | hs
    · exact absurd (h.numbered s hs _ hofs) (Nat.lt_irrefl _)
    · rw [List.mem_singleton] at hs
      subst hs
      exact ⟨rfl, fun _ _ => rfl⟩
  · intro s hs call hofs
    rcases List.mem_append.mp hs with hs | hs
    · exact Nat.lt_succ_of_lt (h.numbered s hs call hofs)
    · rw [List.mem_singleton] at hs
      subst hs
      obtain ⟨-, u', hu', rfl⟩ := hofs
      cases hu'
      exact Nat.lt_succ_self _
  · intro u' hu'
    cases hu'
    exact Nat.lt_succ_self _
  · rw [hsucceeded]
    exact h.once
  · rw [hsucceeded]
    exact h.undone
  · intro u' hu' hdone
    cases hu'
    rcases hphase with rfl | ⟨e, rfl⟩
    · cases hdone
    · cases hdone

/-- A return shows in the history what the undo came to. -/
theorem succeeded_returns {u : Undo} {outcome : Except JournalError Unit} (hu : w.undo = some u)
    (hdone : u.phase = .done outcome) (w' : World) :
    succeeded (w, .undo .returns, w') = match outcome with
      | .ok () => some u.snapshot
      | .error _ => none := by
  obtain ⟨number, snapshot, bytes, target, temporary, phase, renamed, edited⟩ := u
  obtain rfl : phase = .done outcome := hdone
  cases outcome with
  | error e => simp [succeeded, hu]
  | ok done => simp [succeeded, hu]

theorem returns_inv {u : Undo} {outcome : Except JournalError Unit} (h : Inv blake3 w hist) (hu : w.undo = some u)
    (hdone : u.phase = .done outcome) :
    Inv blake3 { w with undo := none } (hist ++ [(w, .undo .returns, { w with undo := none })]) := by
  have hstage := (h.good u hu).stage
  unfold Undo.Stage at hstage
  rw [hdone] at hstage
  have hsucceeded := succeeded_returns hu hdone { w with undo := none }
  constructor
  · exact h.nodup
  · intro row hrow
    exact (h.rows row hrow).mono
  · intro call
    exact h.calls_mono call
  · intro u' hu'
    cases hu'
  · intro u' hu'
    cases hu'
  · intro s hs call hofs
    rcases List.mem_append.mp hs with hs | hs
    · exact h.numbered s hs call hofs
    · rw [List.mem_singleton] at hs
      subst hs
      obtain ⟨-, u', hu', -⟩ := hofs
      cases hu'
  · intro u' hu'
    cases hu'
  · rw [List.filterMap_append, List.filterMap_cons, hsucceeded]
    cases outcome with
    | error e => simpa using h.once
    | ok done =>
      simp only [List.filterMap_nil]
      rw [List.nodup_append_comm, List.singleton_append, List.nodup_cons]
      exact ⟨h.fresh u hu hdone, h.once⟩
  · intro id hid
    rw [List.filterMap_append, List.filterMap_cons, hsucceeded] at hid
    rcases List.mem_append.mp hid with hid | hid
    · exact h.undone id hid
    · cases outcome with
      | error e => cases hid
      | ok done =>
        obtain rfl := List.mem_singleton.mp hid
        obtain ⟨-, row, hrow, hsnapshot, hmark, -⟩ := hstage
        exact ⟨row, hrow, hsnapshot, hmark⟩
  · intro u' hu'
    cases hu'

theorem not_mem_succeeded {u : Undo} (h : Inv blake3 w hist) (hlive : u.From blake3 w.rows false) :
    u.snapshot ∉ hist.filterMap succeeded := by
  intro hmem
  obtain ⟨own, hown, hid, hundone, -⟩ := hlive
  obtain ⟨row, hrow, hsnapshot, hmark⟩ := h.undone _ hmem
  have heq : row = own := List.inj_on_of_nodup_map h.nodup hrow hown (hsnapshot.trans hid.symm)
  rw [heq, hundone] at hmark
  cases hmark

theorem undo_inv {s : UndoStep} {u u' : Undo} {fs : Fs Path Bytes} {rows : List Row} (h : Inv blake3 w hist)
    (hu : w.undo = some u) (hstep : u.step blake3 w.fs w.rows s = some (fs, rows, u')) :
    Inv blake3 { w with fs := fs, rows := rows, undo := some u' }
      (hist ++ [(w, .undo s, { w with fs := fs, rows := rows, undo := some u' })]) := by
  have hadv := step_advances (h.good u hu) h.nodup hstep
  have hnone : ∀ w' : World, succeeded (w, .undo s, w') = none := by
    intro w'
    cases s with
    | returns => cases hstep
    | _ => rfl
  have hsucceeded : ∀ w' : World, (hist ++ [(w, Act.undo s, w')]).filterMap succeeded = hist.filterMap succeeded := by
    intro w'
    rw [List.filterMap_append]
    simp [hnone]
  constructor
  · rcases hadv.table with rfl | rfl
    · exact h.nodup
    · rw [snapshots_marked]
      exact h.nodup
  · intro row hrow
    rcases hadv.table with rfl | rfl
    · exact (h.rows row hrow).mono
    · obtain ⟨old, hold, hsnapshot, hpath, hbefore, hhash, -⟩ := mem_marked hrow
      exact ((h.rows old hold).congr hsnapshot hpath hbefore hhash).mono
  · intro call
    exact h.calls_mono call
  · intro v hv
    cases hv
    exact hadv.good
  · intro v hv hr t ht hof
    cases hv
    obtain ⟨hrenamed, hrows, hread⟩ := hadv.spares hr
    rcases List.mem_append.mp ht with ht | ht
    · rw [hadv.call] at hof
      obtain ⟨hsame, hold⟩ := h.spares u hu hrenamed t ht hof
      refine ⟨hsame, ?_⟩
      intro p hp
      apply hold
      intro temporary htemporary
      exact hp temporary (hadv.temporary temporary htemporary)
    · rw [List.mem_singleton] at ht
      subst ht
      exact ⟨hrows, hread⟩
  · intro t ht call hof
    rcases List.mem_append.mp ht with ht | ht
    · exact h.numbered t ht call hof
    · rw [List.mem_singleton] at ht
      subst ht
      obtain ⟨-, v, hv, rfl⟩ := hof
      cases hv
      rw [hadv.call]
      exact h.under u hu
  · intro v hv
    cases hv
    rw [hadv.call]
    exact h.under u hu
  · rw [hsucceeded]
    exact h.once
  · rw [hsucceeded]
    intro snapshot hsnapshot
    obtain ⟨row, hrow, hid, hmark⟩ := h.undone snapshot hsnapshot
    rcases hadv.table with rfl | rfl
    · exact ⟨row, hrow, hid, hmark⟩
    · refine ⟨_, List.mem_map_of_mem hrow, ?_, ?_⟩
      · split
        · exact hid
        · exact hid
      · split
        · rfl
        · exact hmark
  · rw [hsucceeded]
    intro v hv hdone
    cases hv
    rw [hadv.snapshot]
    exact not_mem_succeeded h (hadv.live hdone)

theorem step_inv (w : World) (hist : List Step) (a : Act) (w' : World) (h : Inv blake3 w hist)
    (hstep : step blake3 w a = some w') : Inv blake3 w' (hist ++ [(w, a, w')]) := by
  cases step_cases hstep with
  | snapshot hc => exact snapshot_inv h hc
  | refused e hidle => exact refused_inv h hidle
  | inserted hcall hidle hfresh hhash => exact inserted_inv h hcall hidle hfresh hhash
  | begins hidle hphase => exact begins_inv h hphase rfl
  | returns hu hdone => exact returns_inv h hu hdone
  | undo hu hs => exact undo_inv h hu hs
  | edit howned => exact edit_inv h howned rfl
  | damage hidle => exact damage_inv h hidle
  | kill => exact kill_inv h

theorem inv_start (fs : Fs Path Bytes) : Inv blake3 (World.start fs) [] := by
  constructor
  · exact List.nodup_nil
  · intro row hrow
    cases hrow
  · intro call
    exact trivial
  · intro u hu
    cases hu
  · intro u hu
    cases hu
  · intro s hs
    cases hs
  · intro u hu
    cases hu
  · exact List.nodup_nil
  · intro snapshot hsnapshot
    cases hsnapshot
  · intro u hu
    cases hu

/-! ## The contract of an undo -/

/-- In every run, whatever fails and whatever other programs edit in between: no snapshot is undone
twice. An undo about to return `Ok` has a snapshot that was taken, and its file reads, unless another
program changed it since the rename, bytes with the digest of those that were taken: these very bytes
unless the stored ones were damaged. An undo that failed before the rename, or that its row refused, has
changed neither the rows nor any file but its own temporary one, which is not the file of the snapshot. -/
theorem undo_restores_or_spares (fs : Fs Path Bytes) (as : List Act) (w : World)
    (h : run (step blake3) (World.start fs) as = some w) :
    ((trace (step blake3) (World.start fs) as).filterMap succeeded).Nodup ∧
    ∀ u outcome, w.undo = some u → u.phase = .done outcome →
      (outcome = .ok () → ∃ call path original restored,
        Took (trace (step blake3) (World.start fs) as) call u.snapshot path original ∧
        (u.edited = false → w.fs.read path = some restored) ∧
        snapshotDigest blake3 restored = snapshotDigest blake3 original ∧
        (Undamaged (trace (step blake3) (World.start fs) as) u.snapshot → restored = original)) ∧
      (outcome ≠ .ok () ∧ u.renamed = false ∨ (∃ e, outcome = .error e ∧ e.Refusal) →
        (∀ s ∈ trace (step blake3) (World.start fs) as, OfUndo u.call s → Spares u.temporary s) ∧
        ∀ row ∈ w.rows, row.snapshot = u.snapshot → ∀ t, u.temporary = some t → row.path.bytes ≠ t.path) := by
  have hstart : Inv blake3 (World.start fs) [] := inv_start fs
  obtain ⟨t, hinv, hrun⟩ := run_history step_inv as hstart
  obtain rfl := hrun w h
  rw [List.nil_append] at hinv
  refine ⟨hinv.once, ?_⟩
  intro u outcome hu hphase
  have hgood := hinv.good u hu
  have hstage := hgood.stage
  unfold Undo.Stage at hstage
  rw [hphase] at hstage
  constructor
  · rintro rfl
    obtain ⟨hrenamed, row, hrow, hid, -, hpath, hbefore, hhash⟩ := hstage
    obtain ⟨call, original, htook, hdigest, horiginal⟩ := hinv.rows row hrow
    refine ⟨call, row.path.bytes, original, u.bytes, hid ▸ htook, ?_, ?_, ?_⟩
    · rw [hpath]
      exact hgood.restored hrenamed
    · apply ContentHash.ext
      exact Vector.toList_inj.mp (hhash.symm.trans hdigest)
    · intro hundamaged
      rw [← hbefore]
      exact horiginal (hid ▸ hundamaged)
  · intro hfailed
    have hrenamed : u.renamed = false := by
      rcases hfailed with ⟨-, hr⟩ | ⟨e, rfl, he⟩
      · exact hr
      · exact (hstage he).1
    refine ⟨hinv.spares u hu hrenamed, ?_⟩
    intro row hrow hid t ht
    rw [(hgood.apart t ht).2 row hrow hid]
    exact (hgood.apart t ht).1.symm

/-- A file system with one file. -/
def oneFile : Fs Path Bytes where
  names path := if path = utf8 "/d/a" then some (.file 0) else none
  content _ := utf8 "one"
  next := 1
  bounded := by
    intro path ino h
    split at h
    · cases h
      decide
    · cases h

/-- A snapshot of the file, an edit by another program, and the undo up to its return. -/
def editAndUndo : List Act :=
  [.snapshot 0 (.opens (utf8 "a") (.ok (0, true))), .snapshot 0 (.canonicalize (.ok ⟨utf8 "/d/a", by decide⟩)),
    .snapshot 0 (.symlinkMetadata none), .snapshot 0 (.readToEnd none), .snapshot 0 (.symlinkMetadataAfter none),
    .snapshot 0 (.withTransaction .none ⟨7⟩), .edit (.write (utf8 "/d/a") (utf8 "two")),
    .undo (.begins ⟨7⟩ none), .undo (.readRow none), .undo (.create none), .undo (.writeAll none),
    .undo (.syncAll none), .undo (.rename none), .undo (.syncDirectory none), .undo (.removeFile true),
    .undo (.markUndone none), .undo (.commit none)]

/-- The undo has answered that it restored the file of a snapshot, and the file was not edited meanwhile. -/
def restoredAs (snapshot : SnapshotId) (w : World) : Bool :=
  match w.undo with
  | some ⟨_, other, _, _, _, .done (.ok ()), _, edited⟩ => other = snapshot ∧ edited = false
  | _ => false

/-- The edited file reads what the snapshot took. -/
theorem undo_restores_or_spares_edited_file :
    ∃ w, run (step fun _ => ⟨Vector.replicate 32 0⟩) (World.start oneFile) editAndUndo = some w ∧
      ∃ call path original,
        Took (trace (step fun _ => ⟨Vector.replicate 32 0⟩) (World.start oneFile) editAndUndo) call ⟨7⟩ path original ∧
        w.fs.read path = some original := by
  have hrun : (run (step fun _ => ⟨Vector.replicate 32 0⟩) (World.start oneFile) editAndUndo).any (restoredAs ⟨7⟩) =
      true := by decide +kernel
  obtain ⟨w, hw, hdone⟩ := (Option.any_eq_true _ _).mp hrun
  refine ⟨w, hw, ?_⟩
  rw [restoredAs] at hdone
  split at hdone
  · rename_i hu
    obtain ⟨rfl, rfl⟩ := of_decide_eq_true hdone
    obtain ⟨call, path, original, restored, htook, hread, -, hbytes⟩ :=
      ((undo_restores_or_spares oneFile editAndUndo w hw).2 _ _ hu rfl).1 rfl
    have hundamaged : restored = original := by
      apply hbytes
      intro s hs before he
      have hact := act_mem_of_mem_trace hs
      rw [he] at hact
      simp [editAndUndo] at hact
    exact ⟨call, path, original, htook, hundamaged ▸ hread rfl⟩
  · cases hdone

end SupraHarness.Journal
