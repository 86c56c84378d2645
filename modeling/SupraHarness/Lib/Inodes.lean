import Mathlib.Logic.Function.Basic

/-!
# Names and inodes

A file system as names that lead to inodes and inodes that hold content. Two names of one inode see
each other's writes; an inode that only one name leads to is private to whoever has that name. An
edit of other names leaves such an inode alone.
-/
namespace SupraHarness.Inodes

/-- A regular file, or else a directory or a symbolic link. -/
inductive Entry where
  | file (ino : Nat)
  | special (directory : Bool)
  deriving DecidableEq, Repr

/-- Inodes from `next` on have not been handed out. -/
structure Fs (ν β : Type) where
  names : ν → Option Entry
  content : Nat → β
  next : Nat
  bounded : ∀ path ino, names path = some (.file ino) → ino < next

variable {ν β : Type}

namespace Fs

/-- What a reader of the path finds: the content of a file, or nothing. -/
def read (fs : Fs ν β) (path : ν) : Option β :=
  match fs.names path with
  | some (.file ino) => some (fs.content ino)
  | _ => none

/-- One name leads to the inode, and no other. -/
def Sole (fs : Fs ν β) (path : ν) (ino : Nat) : Prop :=
  ∀ other, fs.names other = some (.file ino) ↔ other = path

/-- The content of an inode, written in place. -/
def write (fs : Fs ν β) (ino : Nat) (b : β) : Fs ν β :=
  { fs with content := Function.update fs.content ino b }

variable [DecidableEq ν]

/-- A new file under the name, whatever the name led to. -/
def create (fs : Fs ν β) (path : ν) (b : β) : Fs ν β where
  names := Function.update fs.names path (some (.file fs.next))
  content := Function.update fs.content fs.next b
  next := fs.next + 1
  bounded := by
    intro other ino h
    rw [Function.update_apply] at h
    split at h
    · cases h
      exact Nat.lt_succ_self _
    · exact Nat.lt_succ_of_lt (fs.bounded other ino h)

def remove (fs : Fs ν β) (path : ν) : Fs ν β where
  names := Function.update fs.names path none
  content := fs.content
  next := fs.next
  bounded := by
    intro other ino h
    rw [Function.update_apply] at h
    split at h
    · cases h
    · exact fs.bounded other ino h

/-- Another name for what `source` leads to. -/
def link (fs : Fs ν β) (source target : ν) : Fs ν β where
  names := Function.update fs.names target (fs.names source)
  content := fs.content
  next := fs.next
  bounded := by
    intro other ino h
    rw [Function.update_apply] at h
    split at h
    · exact fs.bounded source ino h
    · exact fs.bounded other ino h

def rename (fs : Fs ν β) (source target : ν) : Fs ν β :=
  (fs.link source target).remove source

/-- A directory or a symbolic link in the place of whatever was there. -/
def occupy (fs : Fs ν β) (path : ν) (directory : Bool) : Fs ν β where
  names := Function.update fs.names path (some (.special directory))
  content := fs.content
  next := fs.next
  bounded := by
    intro other ino h
    rw [Function.update_apply] at h
    split at h
    · cases h
    · exact fs.bounded other ino h

theorem read_create (fs : Fs ν β) (path other : ν) (b : β) :
    (fs.create path b).read other = if other = path then some b else fs.read other := by
  by_cases h : other = path
  · simp [read, create, h]
  · rw [if_neg h]
    simp only [read, create, Function.update_of_ne h]
    cases hname : fs.names other with
    | none => rfl
    | some entry =>
      cases entry with
      | special directory => rfl
      | file ino =>
        have hne : ino ≠ fs.next := Nat.ne_of_lt (fs.bounded other ino hname)
        simp only [Function.update_of_ne hne]

theorem read_remove (fs : Fs ν β) (path other : ν) :
    (fs.remove path).read other = if other = path then none else fs.read other := by
  by_cases h : other = path
  · simp [read, remove, h]
  · rw [if_neg h]
    simp only [read, remove, Function.update_of_ne h]

theorem read_link (fs : Fs ν β) (source target other : ν) :
    (fs.link source target).read other = if other = target then fs.read source else fs.read other := by
  by_cases h : other = target
  · simp [read, link, h]
  · rw [if_neg h]
    simp only [read, link, Function.update_of_ne h]

theorem read_rename (fs : Fs ν β) {source target : ν} (hne : source ≠ target) (other : ν) :
    (fs.rename source target).read other =
      if other = target then fs.read source else if other = source then none else fs.read other := by
  rw [rename, read_remove, read_link]
  by_cases hs : other = source
  · rw [if_pos hs, if_pos hs, if_neg]
    rw [hs]
    exact hne
  · rw [if_neg hs, if_neg hs]

/-- A write through the only name of an inode shows under that name alone. -/
theorem Sole.read_write {fs : Fs ν β} {path : ν} {ino : Nat} (h : fs.Sole path ino) (b : β) (other : ν) :
    (fs.write ino b).read other = if other = path then some b else fs.read other := by
  by_cases ho : other = path
  · have hname : fs.names path = some (.file ino) := (h path).mpr rfl
    simp [read, write, ho, hname]
  · rw [if_neg ho]
    simp only [read, write]
    cases hname : fs.names other with
    | none => rfl
    | some entry =>
      cases entry with
      | special directory => rfl
      | file j =>
        have hne : j ≠ ino := by
          rintro rfl
          exact ho ((h other).mp hname)
        simp only [Function.update_of_ne hne]

omit [DecidableEq ν] in
theorem Sole.read_eq {fs : Fs ν β} {path : ν} {ino : Nat} (h : fs.Sole path ino) :
    fs.read path = some (fs.content ino) := by
  rw [read, (h path).mpr rfl]

theorem sole_create (fs : Fs ν β) (path : ν) (b : β) : (fs.create path b).Sole path fs.next := by
  intro other
  simp only [create, Function.update_apply]
  constructor
  · intro h
    split at h
    · assumption
    · exact absurd (fs.bounded other _ h) (Nat.lt_irrefl _)
  · intro h
    rw [if_pos h]

/-- A name is redirected: the inode stays private when the name is not its own and does not come to
lead to it. -/
theorem Sole.update {fs fs' : Fs ν β} {path changed : ν} {ino : Nat} {entry : Option Entry}
    (h : fs.Sole path ino) (hne : changed ≠ path) (hnames : fs'.names = Function.update fs.names changed entry)
    (hentry : entry ≠ some (.file ino)) : fs'.Sole path ino := by
  intro other
  rw [hnames, Function.update_apply]
  by_cases ho : other = changed
  · rw [if_pos ho]
    constructor
    · intro he
      exact absurd he hentry
    · intro he
      exact absurd (ho.symm.trans he) hne
  · rw [if_neg ho]
    exact h other

end Fs

/-! ## Edits from outside -/

/-- What another program can do to files, by their names. -/
inductive Edit (ν β : Type) where
  | write (path : ν) (b : β)
  | replace (path : ν) (b : β)
  | remove (path : ν)
  | rename (source target : ν)
  | link (source target : ν)
  | occupy (path : ν) (directory : Bool)

def Edit.paths : Edit ν β → List ν
  | .write path _ => [path]
  | .replace path _ => [path]
  | .remove path => [path]
  | .rename source target => [source, target]
  | .link source target => [source, target]
  | .occupy path _ => [path]

variable [DecidableEq ν]

/-- The edit, or nothing where it cannot be made. -/
def Fs.edit (fs : Fs ν β) : Edit ν β → Fs ν β
  | .write path b =>
    match fs.names path with
    | some (.file ino) => fs.write ino b
    | some (.special _) => fs
    | none => fs.create path b
  | .replace path b => fs.create path b
  | .remove path => fs.remove path
  | .rename source target => if source = target then fs else fs.rename source target
  | .link source target => if fs.names target = none then fs.link source target else fs
  | .occupy path directory => fs.occupy path directory

/-- An edit of other names leaves a private inode private, and its content as it was. -/
theorem Fs.Sole.edit {fs : Fs ν β} {path : ν} {ino : Nat} (h : fs.Sole path ino) {e : Edit ν β}
    (hpath : path ∉ e.paths) : (fs.edit e).Sole path ino ∧ (fs.edit e).content ino = fs.content ino := by
  have hself : fs.names path = some (.file ino) := (h path).mpr rfl
  have hfresh : ino ≠ fs.next := Nat.ne_of_lt (fs.bounded path ino hself)
  have hother : ∀ changed, changed ≠ path → fs.names changed ≠ some (.file ino) := by
    intro changed hne hc
    exact hne ((h changed).mp hc)
  have hcreate : ∀ changed b, changed ≠ path →
      (fs.create changed b).Sole path ino ∧ (fs.create changed b).content ino = fs.content ino := by
    intro changed b hne
    refine ⟨h.update hne rfl ?_, Function.update_of_ne hfresh ..⟩
    intro he
    cases he
    exact hfresh rfl
  cases e with
  | write changed b =>
    have hne : changed ≠ path := by
      rintro rfl
      simp [Edit.paths] at hpath
    simp only [Fs.edit]
    cases hname : fs.names changed with
    | none => exact hcreate changed b hne
    | some entry =>
      cases entry with
      | special directory => exact ⟨h, rfl⟩
      | file j =>
        have hj : ino ≠ j := by
          rintro rfl
          exact hother changed hne hname
        exact ⟨h, Function.update_of_ne hj ..⟩
  | replace changed b =>
    have hne : changed ≠ path := by
      rintro rfl
      simp [Edit.paths] at hpath
    exact hcreate changed b hne
  | remove changed =>
    have hne : changed ≠ path := by
      rintro rfl
      simp [Edit.paths] at hpath
    exact ⟨h.update hne rfl (by simp), rfl⟩
  | rename source target =>
    simp only [Edit.paths, List.mem_cons, List.not_mem_nil, or_false, not_or] at hpath
    simp only [Fs.edit]
    split
    · exact ⟨h, rfl⟩
    · have hlink : (fs.link source target).Sole path ino :=
        h.update (Ne.symm hpath.2) rfl (hother source (Ne.symm hpath.1))
      exact ⟨hlink.update (Ne.symm hpath.1) rfl (by simp), rfl⟩
  | link source target =>
    simp only [Edit.paths, List.mem_cons, List.not_mem_nil, or_false, not_or] at hpath
    simp only [Fs.edit]
    split
    · exact ⟨h.update (Ne.symm hpath.2) rfl (hother source (Ne.symm hpath.1)), rfl⟩
    · exact ⟨h, rfl⟩
  | occupy changed directory =>
    have hne : changed ≠ path := by
      rintro rfl
      simp [Edit.paths] at hpath
    exact ⟨h.update hne rfl (by simp), rfl⟩

end SupraHarness.Inodes
