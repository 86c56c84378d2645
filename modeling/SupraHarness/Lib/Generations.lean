import Mathlib.Data.List.Basic
import Mathlib.Logic.Function.Basic

/-!
# Generations of a file

Slot `0` is the current file and slot `i` the one `i` rotations older. A rotation shifts the slots by
one, the oldest falling off the end; it is a list of file operations, of which a failure leaves a
first part done. Whatever part is done, the generations from the oldest to the current one still
spell a suffix of what they spelled before.
-/
namespace SupraHarness.Generations

variable {γ δ β : Type}

abbrev Files (γ : Type) := Nat → Option γ

inductive Op where
  | truncate
  | remove (index : Nat)
  | rename (index : Nat)
  deriving DecidableEq, Repr

/-- A missing file is left alone. -/
def Op.apply (blank : γ) (files : Files γ) : Op → Files γ
  | .truncate => Function.update files 0 (some blank)
  | .remove index => Function.update files index none
  | .rename index =>
    if (files index).isSome then
      Function.update (Function.update files (index + 1) (files index)) index none
    else files

def renames (count : Nat) : List Op := (List.range count).reverse.map .rename

/-- The operations of a rotation, the oldest file first. -/
def rotation (keep : Nat) : List Op := if keep = 0 then [.truncate] else .remove keep :: renames keep

def applyAll (blank : γ) (ops : List Op) (files : Files γ) : Files γ := ops.foldl (Op.apply blank) files

/-- The rotation, or the operations of it that come before a failure. -/
def rotate (blank : γ) (keep : Nat) (done : Option Nat) (files : Files γ) : Files γ :=
  applyAll blank (done.elim (rotation keep) fun count => (rotation keep).take count) files

/-- What the files say, from the oldest of `keep` to the current one. -/
def contents (files : Files (List β)) : Nat → List β
  | 0 => (files 0).getD []
  | index + 1 => (files (index + 1)).getD [] ++ contents files index

theorem contents_congr {files files' : Files (List β)} {keep : Nat} (h : ∀ i ≤ keep, files i = files' i) :
    contents files keep = contents files' keep := by
  induction keep with
  | zero => rw [contents, contents, h 0 (Nat.le_refl 0)]
  | succ keep ih =>
    rw [contents, contents, h (keep + 1) (Nat.le_refl _), ih fun i hi => h i (Nat.le_succ_of_le hi)]

/-- Slots beyond the ones that are read do not matter. -/
theorem contents_update_of_lt (files : Files (List β)) {keep index : Nat} (h : keep < index)
    (value : Option (List β)) : contents (Function.update files index value) keep = contents files keep := by
  apply contents_congr
  intro i hi
  exact Function.update_of_ne (Nat.ne_of_lt (Nat.lt_of_le_of_lt hi h)) _ _

/-- Appending to the current file appends to what the files say. -/
theorem contents_append (files : Files (List β)) (keep : Nat) (chunk : List β) :
    contents (Function.update files 0 (some ((files 0).getD [] ++ chunk))) keep = contents files keep ++ chunk := by
  induction keep with
  | zero =>
    rw [contents, contents, Function.update_self]
    rfl
  | succ keep ih => rw [contents, contents, Function.update_of_ne (Nat.succ_ne_zero keep), ih, List.append_assoc]

theorem rename_isNone {files : Files γ} {index : Nat} (blank : γ) (h : files index = none) :
    Op.apply blank files (.rename index) = files := by
  rw [Op.apply, h]
  rfl

theorem rename_isSome {files : Files γ} {index : Nat} {c : γ} (blank : γ) (h : files index = some c) :
    Op.apply blank files (.rename index) =
      Function.update (Function.update files (index + 1) (some c)) index none := by
  rw [Op.apply, h]
  rfl

theorem truncate_self (blank : γ) (files : Files γ) : Op.apply blank files .truncate 0 = some blank := by
  rw [Op.apply, Function.update_self]

theorem remove_self (blank : γ) (files : Files γ) (index : Nat) :
    Op.apply blank files (.remove index) index = none := by
  rw [Op.apply, Function.update_self]

/-- A renamed slot is empty afterwards. -/
theorem rename_self (blank : γ) (files : Files γ) (index : Nat) :
    Op.apply blank files (.rename index) index = none := by
  cases h : files index with
  | none => rw [rename_isNone blank h, h]
  | some c => rw [rename_isSome blank h, Function.update_self]

/-- The slots before the last one. -/
theorem contents_last (files : Files (List β)) (index : Nat) :
    contents files index = (files index).getD [] ++ contents (Function.update files index none) index := by
  cases index with
  | zero =>
    rw [contents, contents, Function.update_self]
    exact (List.append_nil _).symm
  | succ index =>
    rw [contents, contents, Function.update_self, contents_update_of_lt _ (Nat.lt_succ_self index)]
    rfl

/-- Renaming into an empty slot keeps what the files say. -/
theorem contents_rename {files : Files (List β)} {index keep : Nat} (hle : index + 1 ≤ keep)
    (hempty : files (index + 1) = none) :
    contents (Op.apply [] files (.rename index)) keep = contents files keep := by
  cases h : files index with
  | none => rw [rename_isNone [] h]
  | some c =>
    rw [rename_isSome [] h]
    induction keep with
    | zero => omega
    | succ keep ih =>
      rcases Nat.lt_or_ge index keep with hlt | hge
      · rw [contents, contents, ih hlt, Function.update_of_ne (by omega), Function.update_of_ne (by omega)]
      · obtain rfl : index = keep := by omega
        have hmoved : Function.update (Function.update files (index + 1) (some c)) index none (index + 1) = some c := by
          rw [Function.update_of_ne (Nat.succ_ne_self index), Function.update_self]
        have hbelow : contents (Function.update (Function.update files (index + 1) (some c)) index none) index =
            contents (Function.update files index none) index := by
          apply contents_congr
          intro i hi
          by_cases heq : i = index
          · rw [heq, Function.update_self, Function.update_self]
          · rw [Function.update_of_ne heq, Function.update_of_ne heq, Function.update_of_ne (by omega)]
        rw [contents, contents, hmoved, hbelow, hempty, contents_last files index, h]
        rfl

theorem renames_succ (count : Nat) : renames (count + 1) = .rename count :: renames count := by
  rw [renames, List.range_succ, List.reverse_append]
  rfl

/-- Renaming from the highest slot down, each into one that is empty, keeps what the files say. -/
theorem contents_renames {files : Files (List β)} {count keep : Nat} (hle : count ≤ keep)
    (hempty : files count = none) (done : Nat) :
    contents (applyAll [] ((renames count).take done) files) keep = contents files keep := by
  induction count generalizing files done with
  | zero =>
    rw [renames, List.range_zero, List.reverse_nil, List.map_nil, List.take_nil]
    rfl
  | succ count ih =>
    cases done with
    | zero => rfl
    | succ done =>
      rw [renames_succ, List.take_succ_cons, applyAll, List.foldl_cons]
      exact (ih (Nat.le_of_succ_le hle) (rename_self [] files count) done).trans (contents_rename hle hempty)

/-- The whole rotation leaves the current slot empty. -/
theorem renames_current (blank : γ) (files : Files γ) {count : Nat} (h : count ≠ 0 ∨ files 0 = none) :
    applyAll blank (renames count) files 0 = none := by
  induction count generalizing files with
  | zero => exact h.resolve_left (fun h => h rfl)
  | succ count ih =>
    rw [renames_succ, applyAll, List.foldl_cons]
    apply ih
    rcases Nat.eq_zero_or_pos count with hzero | hpos
    · subst hzero
      exact .inr (rename_self blank files 0)
    · exact .inl (Nat.ne_of_gt hpos)

theorem take_cons_cases {α : Type} (done : Option Nat) (op : α) (ops : List α) :
    (done.elim (op :: ops) fun count => (op :: ops).take count) = [] ∨
      ∃ count, (done.elim (op :: ops) fun count => (op :: ops).take count) = op :: ops.take count := by
  cases done with
  | none => exact .inr ⟨ops.length, by rw [List.take_length]; rfl⟩
  | some count =>
    cases count with
    | zero => exact .inl rfl
    | succ count => exact .inr ⟨count, rfl⟩

/-- A rotation, however far it got, leaves a suffix of what the files said. -/
theorem contents_rotate (keep : Nat) (done : Option Nat) (files : Files (List β)) :
    contents (rotate [] keep done files) keep <:+ contents files keep := by
  rw [rotate, rotation]
  by_cases hzero : keep = 0
  · subst hzero
    rw [if_pos rfl]
    rcases take_cons_cases done Op.truncate [] with h | ⟨count, h⟩
    · rw [h]
      exact List.suffix_rfl
    · rw [h, List.take_nil, applyAll, List.foldl_cons, List.foldl_nil, contents, Op.apply, Function.update_self]
      exact List.nil_suffix
  · rw [if_neg hzero]
    rcases take_cons_cases done (.remove keep) (renames keep) with h | ⟨count, h⟩
    · rw [h]
      exact List.suffix_rfl
    · rw [h, applyAll, List.foldl_cons]
      have hrest := contents_renames (Nat.le_refl keep) (remove_self [] files keep) count
      rw [applyAll] at hrest
      rw [hrest, contents_last files keep]
      exact List.suffix_append _ _

/-- After a whole rotation nothing is left in the current slot. -/
theorem rotate_current (keep : Nat) (files : Files (List β)) :
    ((rotate [] keep none files) 0).getD [] = [] := by
  rw [rotate, rotation]
  by_cases hzero : keep = 0
  · rw [if_pos hzero]
    exact congrArg (Option.getD · []) (truncate_self [] files)
  · rw [if_neg hzero]
    exact congrArg (Option.getD · []) (renames_current [] (Op.apply [] files (.remove keep)) (.inl hzero))

/-! ## What a slot holds -/

/-- Every slot up to `keep` is empty or satisfies the predicate, and the ones beyond are empty. -/
def Slots (keep : Nat) (p : γ → Prop) (files : Files γ) : Prop :=
  ∀ index c, files index = some c → index ≤ keep ∧ p c

theorem Slots.update {keep : Nat} {p : γ → Prop} {files : Files γ} (h : Slots keep p files) {index : Nat}
    {value : Option γ} (hvalue : ∀ c, value = some c → index ≤ keep ∧ p c) :
    Slots keep p (Function.update files index value) := by
  intro i c hc
  by_cases heq : i = index
  · subst heq
    rw [Function.update_self] at hc
    exact hvalue c hc
  · rw [Function.update_of_ne heq] at hc
    exact h i c hc

/-- The operations of a rotation stay within the slots. -/
def Op.Within (keep : Nat) : Op → Prop
  | .rename index => index < keep
  | _ => True

theorem Slots.apply {keep : Nat} {p : γ → Prop} {files : Files γ} (h : Slots keep p files) {blank : γ}
    (hblank : p blank) {op : Op} (hop : op.Within keep) : Slots keep p (Op.apply blank files op) := by
  cases op with
  | truncate =>
    refine h.update ?_
    intro c hc
    cases hc
    exact ⟨Nat.zero_le keep, hblank⟩
  | remove index => exact h.update nofun
  | rename index =>
    cases hfile : files index with
    | none => rwa [rename_isNone blank hfile]
    | some c =>
      rw [rename_isSome blank hfile]
      refine (h.update ?_).update nofun
      intro c' hc'
      cases hc'
      exact ⟨hop, (h index c hfile).2⟩

theorem Slots.applyAll {keep : Nat} {p : γ → Prop} {blank : γ} (hblank : p blank) {ops : List Op}
    (hops : ∀ op ∈ ops, op.Within keep) {files : Files γ} (h : Slots keep p files) :
    Slots keep p (Generations.applyAll blank ops files) := by
  induction ops generalizing files with
  | nil => exact h
  | cons op ops ih =>
    obtain ⟨hop, hrest⟩ := List.forall_mem_cons.mp hops
    exact ih hrest (h.apply hblank hop)

theorem rotation_within (keep : Nat) : ∀ op ∈ rotation keep, op.Within keep := by
  intro op hop
  rw [rotation] at hop
  split at hop
  · rw [List.mem_singleton.mp hop]
    trivial
  · rcases List.mem_cons.mp hop with rfl | hop
    · trivial
    · obtain ⟨index, hindex, rfl⟩ := List.mem_map.mp hop
      exact List.mem_range.mp (List.mem_reverse.mp hindex)

theorem Slots.rotate {keep : Nat} {p : γ → Prop} {files : Files γ} (h : Slots keep p files) {blank : γ}
    (hblank : p blank) (done : Option Nat) : Slots keep p (Generations.rotate blank keep done files) := by
  refine Slots.applyAll hblank ?_ h
  intro op hop
  cases done with
  | none => exact rotation_within keep op hop
  | some count => exact rotation_within keep op (List.mem_of_mem_take hop)

/-! ## Files seen at another grain -/

/-- The files with the content of each slot read another way. -/
def view (g : γ → δ) (files : Files γ) : Files δ := fun index => (files index).map g

theorem view_update (g : γ → δ) (files : Files γ) (index : Nat) (value : Option γ) :
    view g (Function.update files index value) = Function.update (view g files) index (value.map g) := by
  funext i
  by_cases heq : i = index
  · subst heq
    rw [view, Function.update_self, Function.update_self]
  · rw [view, Function.update_of_ne heq, Function.update_of_ne heq, view]

theorem view_apply (g : γ → δ) (blank : γ) (files : Files γ) (op : Op) :
    view g (op.apply blank files) = op.apply (g blank) (view g files) := by
  cases op with
  | truncate => exact view_update g files 0 (some blank)
  | remove index => exact view_update g files index none
  | rename index =>
    cases hfile : files index with
    | none => rw [rename_isNone blank hfile, rename_isNone (g blank) (by rw [view, hfile]; rfl)]
    | some c =>
      rw [rename_isSome blank hfile, rename_isSome (c := g c) (g blank) (by rw [view, hfile]; rfl), view_update,
        view_update]
      rfl

/-- A rotation does not look into the files. -/
theorem view_rotate (g : γ → δ) (blank : γ) (keep : Nat) (done : Option Nat) (files : Files γ) :
    view g (rotate blank keep done files) = rotate (g blank) keep done (view g files) := by
  rw [rotate, rotate]
  generalize (done.elim (rotation keep) fun count => (rotation keep).take count) = ops
  induction ops generalizing files with
  | nil => rfl
  | cons op ops ih =>
    rw [applyAll, applyAll, List.foldl_cons, List.foldl_cons, ← view_apply]
    exact ih (op.apply blank files)

/-- Files made of chunks, read through. -/
theorem contents_view_flatten (files : Files (List (List β))) (keep : Nat) :
    contents (view List.flatten files) keep = (contents files keep).flatten := by
  have hslot : ∀ index, (view List.flatten files index).getD [] = ((files index).getD []).flatten := by
    intro index
    rw [view]
    cases files index <;> rfl
  induction keep with
  | zero => rw [contents, contents, hslot]
  | succ keep ih => rw [contents, contents, hslot, ih, List.flatten_append]

end SupraHarness.Generations
