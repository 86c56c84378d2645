import Mathlib.Logic.Function.Basic
import SupraHarness.Lib.Run
import SupraHarness.Secrets.FileStore

/-!
# Callers on one vault

Any number of callers work on one path. A `set` or a `delete` takes the transaction lock, loads the
vault, edits it and publishes a newly sealed file by a rename; a `get` reads the file without the
lock. Whatever the interleaving, the passphrases and the failures, the answers are those of one map.
-/
namespace SupraHarness.Secrets

open Run

inductive Update where
  | set (name : Name) (secret : String)
  | delete (name : Name)
  deriving DecidableEq, Repr

/-- What a caller of an update has reached. -/
inductive Phase where
  | idle
  | locked (update : Update)
  | loaded (update : Update) (edited : Vault)
  deriving DecidableEq, Repr

structure State where
  file : Option Bytes
  holder : Option Nat
  phase : Nat → Phase

inductive Action where
  | get (name : Name) (readable : Bool) (passphrase : Except SecretsError String)
  | refuse (update : Update) (error : SecretsError)
  | lock (caller : Nat) (update : Update)
  | load (caller : Nat) (readable : Bool) (passphrase : Except SecretsError String)
  | publish (caller : Nat) (passphrase : Except SecretsError String) (salt : Salt) (nonce : Nonce)
      (fault : Option SecretsError)
  | damage (bytes : Bytes)

inductive Answer where
  | got (name : Name) (result : Except SecretsError String)
  | set (name : Name) (secret : String) (result : Except SecretsError Unit)
  | deleted (name : Name) (result : Except SecretsError Bool)

namespace Answer

def failed (update : Update) (error : SecretsError) : Answer :=
  match update with
  | .set name secret => .set name secret (.error error)
  | .delete name => .deleted name (.error error)

def published (update : Update) : Answer :=
  match update with
  | .set name secret => .set name secret (.ok ())
  | .delete name => .deleted name (.ok true)

end Answer

namespace State

def enter (s : State) (caller : Nat) (phase : Phase) : State :=
  { s with phase := Function.update s.phase caller phase }

/-- The transaction ends and the lock is dropped. -/
def leave (s : State) (caller : Nat) : State := { s.enter caller .idle with holder := none }

end State

section Step

variable (P : Primitives)

/-- The edit of `set` and `delete` after a load: the vault to save, or the answer that needs none. -/
def edit (update : Update) (loaded : Except SecretsError Vault) : Except Answer Vault :=
  match update with
  | .set name secret =>
    match orEmpty loaded with
    | .ok vault => .ok (vault.set name secret)
    | .error error => .error (.set name secret (.error error))
  | .delete name =>
    match loaded with
    | .ok vault =>
      if (vault.remove name).records.length = vault.records.length then .error (.deleted name (.ok false))
      else .ok (vault.remove name)
    | .error error =>
      if error = .io true then .error (.deleted name (.ok false))
      else .error (.deleted name (.error error))

/-- The new file, unless the passphrase, the cipher or a step before the rename fails. -/
def save (vault : Vault) (passphrase : Except SecretsError String) (salt : Salt) (nonce : Nonce)
    (fault : Option SecretsError) : Except SecretsError Bytes :=
  match passphrase with
  | .error error => .error error
  | .ok passphrase =>
    match saveBytes P passphrase salt nonce vault with
    | .error error => .error error
    | .ok bytes =>
      match fault with
      | some error => .error error
      | none => .ok bytes

/-- One step of a caller, or damage to the file, with the answer of the call that ends by it. -/
def perform (s : State) : Action → Option (State × Option Answer)
  | .get name readable passphrase => some (s, some (.got name (get P s.file readable passphrase name)))
  | .refuse update error => some (s, some (.failed update error))
  | .lock caller update =>
    if s.phase caller = .idle ∧ s.holder = none then
      some ({ s.enter caller (.locked update) with holder := some caller }, none)
    else none
  | .load caller readable passphrase =>
    match s.phase caller with
    | .locked update =>
      match edit update (load P s.file readable passphrase) with
      | .error answer => some (s.leave caller, some answer)
      | .ok vault => some (s.enter caller (.loaded update vault), none)
    | _ => none
  | .publish caller passphrase salt nonce fault =>
    match s.phase caller with
    | .loaded update vault =>
      match save P vault passphrase salt nonce fault with
      | .error error => some (s.leave caller, some (.failed update error))
      | .ok bytes => some ({ s.leave caller with file := some bytes }, some (.published update))
    | _ => none
  | .damage bytes => some ({ s with file := some bytes }, none)

def step (s : State) (action : Action) : Option State := (perform P s action).map Prod.fst

def answer (s : State) (action : Action) : Option Answer := (perform P s action).bind Prod.snd

end Step

/-! ## The abstract map -/

abbrev Contents := Name → Option String

def Update.apply (update : Update) (contents : Contents) : Contents :=
  match update with
  | .set name secret => Function.update contents name (some secret)
  | .delete name => Function.update contents name none

/-- An update worth saving: a delete of a name that is there. -/
def Update.Effective (update : Update) (contents : Contents) : Prop :=
  match update with
  | .set _ _ => True
  | .delete name => contents name ≠ none

/-- What an answered call does to the map: only a success changes it. -/
def Answer.apply (answer : Answer) (contents : Contents) : Contents :=
  match answer with
  | .set name secret (.ok ()) => Function.update contents name (some secret)
  | .deleted name (.ok _) => Function.update contents name none
  | _ => contents

/-- The map after the successful updates of a history. -/
def latest (P : Primitives) (start : Contents) (taken : List (State × Action × State)) : Contents :=
  taken.foldl (fun contents t => (answer P t.1 t.2.1).elim contents fun a => a.apply contents) start

theorem latest_append (P : Primitives) (start : Contents) (taken : List (State × Action × State))
    (t : State × Action × State) :
    latest P start (taken ++ [t]) =
      (answer P t.1 t.2.1).elim (latest P start taken) fun a => a.apply (latest P start taken) := by
  rw [latest, List.foldl_append]
  rfl

/-- The file holds the map: it was never written and the map is empty, or it is a sealed vault. -/
def Holds (P : Primitives) (file : Option Bytes) (contents : Contents) : Prop :=
  (file = none ∧ contents = fun _ => none) ∨
    ∃ passphrase salt nonce vault bytes, saveBytes P passphrase salt nonce vault = .ok bytes ∧
      file = some bytes ∧ vault.find = contents

/-- Bytes that open under no passphrase. -/
def Damaged (P : Primitives) (bytes : Bytes) : Prop :=
  ∀ passphrase vault, openBytes P bytes passphrase ≠ .ok vault

/-- At most the holder of the lock is in a transaction, what it has loaded and edited is the edit
of the map, and the file holds the map unless it is damaged. -/
structure Inv (P : Primitives) (contents : Contents) (s : State) : Prop where
  file : Holds P s.file contents ∨ ∃ bytes, s.file = some bytes ∧ Damaged P bytes
  holder : ∀ caller, s.phase caller ≠ .idle → s.holder = some caller
  edited : ∀ caller update vault, s.phase caller = .loaded update vault →
    vault.find = update.apply contents ∧ update.Effective contents

/-- An update that ends at the load has failed with the load, or deletes what is not there. -/
theorem edit_answer {update : Update} {loaded : Except SecretsError Vault} {answer : Answer}
    (h : edit update loaded = .error answer) :
    (∃ error, loaded = .error error ∧ answer = .failed update error) ∨
    ∃ name, update = .delete name ∧ answer = .deleted name (.ok false) ∧
      ∃ vault, orEmpty loaded = .ok vault ∧ vault.find name = none := by
  cases update with
  | set name secret =>
    rw [edit] at h
    rcases orEmpty_eq loaded with ⟨_, hempty⟩ | ⟨_, hloaded⟩
    · rw [hempty] at h
      contradiction
    · rw [hloaded] at h
      cases loaded with
      | ok vault => contradiction
      | error error =>
        cases h
        exact .inl ⟨error, rfl, rfl⟩
  | delete name =>
    cases loaded with
    | ok vault =>
      simp only [edit] at h
      by_cases hlen : (vault.remove name).records.length = vault.records.length
      · rw [if_pos hlen] at h
        cases h
        exact .inr ⟨name, rfl, rfl, vault, rfl, (vault.remove_length name).mp hlen⟩
      · rw [if_neg hlen] at h
        contradiction
    | error error =>
      simp only [edit] at h
      by_cases hmissing : error = .io true
      · rw [if_pos hmissing] at h
        cases h
        subst hmissing
        exact .inr ⟨name, rfl, rfl, .empty, rfl, rfl⟩
      · rw [if_neg hmissing] at h
        cases h
        exact .inl ⟨error, rfl, rfl⟩

/-- What is saved is the edit of what was loaded. -/
theorem edit_vault {update : Update} {loaded : Except SecretsError Vault} {edited : Vault}
    (h : edit update loaded = .ok edited) :
    ∃ vault, orEmpty loaded = .ok vault ∧ edited.find = update.apply vault.find ∧
      update.Effective vault.find := by
  cases update with
  | set name secret =>
    rw [edit] at h
    cases hvault : orEmpty loaded with
    | error error =>
      rw [hvault] at h
      contradiction
    | ok vault =>
      rw [hvault] at h
      cases h
      refine ⟨vault, rfl, ?_, trivial⟩
      funext name'
      rw [Vault.find_set, Update.apply, Function.update_apply]
      simp only [eq_comm]
  | delete name =>
    cases loaded with
    | ok vault =>
      simp only [edit] at h
      by_cases hlen : (vault.remove name).records.length = vault.records.length
      · rw [if_pos hlen] at h
        contradiction
      · rw [if_neg hlen] at h
        cases h
        refine ⟨vault, rfl, ?_, fun hnone => hlen ((vault.remove_length name).mpr hnone)⟩
        funext name'
        rw [Vault.find_remove, Update.apply, Function.update_apply]
        simp only [eq_comm]
    | error error =>
      simp only [edit] at h
      split at h <;> contradiction

/-! ## What a load finds -/

/-- A vault loaded from a file that holds a map is that map. -/
theorem load_holds {P : Primitives} (ideal : Ideal P) {file : Option Bytes} {contents : Contents}
    (hfile : Holds P file contents ∨ ∃ bytes, file = some bytes ∧ Damaged P bytes) {readable : Bool}
    {passphrase : Except SecretsError String}
    (hmissing : load P file readable passphrase = .error (.io true) → file = none) {vault : Vault}
    (h : orEmpty (load P file readable passphrase) = .ok vault) : vault.find = contents := by
  rcases orEmpty_eq (load P file readable passphrase) with ⟨herror, hempty⟩ | ⟨_, hloaded⟩
  · have hnone := hmissing herror
    rw [hempty] at h
    cases h
    rcases hfile with (⟨_, rfl⟩ | ⟨_, _, _, _, bytes, _, hsome, _⟩) | ⟨bytes, hsome, _⟩
    · rfl
    · rw [hnone] at hsome
      contradiction
    · rw [hnone] at hsome
      contradiction
  · rw [hloaded] at h
    cases readable with
    | false => cases h
    | true =>
      rcases hfile with (⟨rfl, _⟩ | ⟨passphrase', salt, nonce, sealed, bytes, hsave, rfl, hfind⟩) |
        ⟨bytes, rfl, hdamaged⟩
      · cases h
      · rw [← hfind, openBytes_sealed ideal hsave h]
      · exact absurd h (hdamaged passphrase vault)

/-- The passphrase of a load is not missing in the way a file is, where it is asked for. -/
def Distinguishes (s : State) : Action → Prop
  | .load _ true (.error (.io true)) => ∀ bytes, s.file = some bytes → ¬HasHeader bytes
  | _ => True

theorem Distinguishes.missing {P : Primitives} {s : State} {caller : Nat} {readable : Bool}
    {passphrase : Except SecretsError String} (h : Distinguishes s (.load caller readable passphrase))
    (hload : load P s.file readable passphrase = .error (.io true)) : s.file = none := by
  rcases load_missing hload with hnone | ⟨rfl, rfl, bytes, hsome, hheader⟩
  · exact hnone
  · exact absurd hheader (h bytes hsome)

theorem save_eq_ok {P : Primitives} {vault : Vault} {passphrase : Except SecretsError String} {salt : Salt}
    {nonce : Nonce} {fault : Option SecretsError} {bytes : Bytes}
    (h : save P vault passphrase salt nonce fault = .ok bytes) :
    ∃ text, passphrase = .ok text ∧ saveBytes P text salt nonce vault = .ok bytes := by
  cases passphrase with
  | error error => cases h
  | ok text =>
    simp only [save] at h
    cases hbytes : saveBytes P text salt nonce vault with
    | error error =>
      rw [hbytes] at h
      cases h
    | ok bytes' =>
      rw [hbytes] at h
      cases fault with
      | some error => cases h
      | none => exact ⟨text, rfl, hbytes.trans h⟩

/-! ## One step -/

/-- All a step can do. -/
inductive Steps (P : Primitives) (s : State) : Action → State → Option Answer → Prop where
  | got (name : Name) (readable : Bool) (passphrase : Except SecretsError String) :
    Steps P s (.get name readable passphrase) s (some (.got name (get P s.file readable passphrase name)))
  | refused (update : Update) (error : SecretsError) :
    Steps P s (.refuse update error) s (some (.failed update error))
  | locked (caller : Nat) (update : Update) : s.phase caller = .idle → s.holder = none →
    Steps P s (.lock caller update) { s.enter caller (.locked update) with holder := some caller } none
  | ended (caller : Nat) (readable : Bool) (passphrase : Except SecretsError String) (update : Update)
      (answer : Answer) : s.phase caller = .locked update →
    edit update (load P s.file readable passphrase) = .error answer →
    Steps P s (.load caller readable passphrase) (s.leave caller) (some answer)
  | loaded (caller : Nat) (readable : Bool) (passphrase : Except SecretsError String) (update : Update)
      (vault : Vault) : s.phase caller = .locked update →
    edit update (load P s.file readable passphrase) = .ok vault →
    Steps P s (.load caller readable passphrase) (s.enter caller (.loaded update vault)) none
  | failed (caller : Nat) (passphrase : Except SecretsError String) (salt : Salt) (nonce : Nonce)
      (fault : Option SecretsError) (update : Update) (vault : Vault) (error : SecretsError) :
    s.phase caller = .loaded update vault → save P vault passphrase salt nonce fault = .error error →
    Steps P s (.publish caller passphrase salt nonce fault) (s.leave caller) (some (.failed update error))
  | published (caller : Nat) (passphrase : Except SecretsError String) (salt : Salt) (nonce : Nonce)
      (fault : Option SecretsError) (update : Update) (vault : Vault) (bytes : Bytes) :
    s.phase caller = .loaded update vault → save P vault passphrase salt nonce fault = .ok bytes →
    Steps P s (.publish caller passphrase salt nonce fault) { s.leave caller with file := some bytes }
      (some (.published update))
  | damaged (bytes : Bytes) : Steps P s (.damage bytes) { s with file := some bytes } none

theorem step_cases {P : Primitives} {s s' : State} {action : Action} (h : step P s action = some s') :
    Steps P s action s' (answer P s action) := by
  obtain ⟨⟨t, given⟩, hperform, rfl⟩ := Option.map_eq_some_iff.mp h
  have hanswer : answer P s action = given := by rw [answer, hperform]; rfl
  rw [hanswer]
  cases action with
  | get name readable passphrase =>
    cases hperform
    exact .got name readable passphrase
  | refuse update error =>
    cases hperform
    exact .refused update error
  | lock caller update =>
    simp only [perform] at hperform
    by_cases hfree : s.phase caller = .idle ∧ s.holder = none
    · rw [if_pos hfree] at hperform
      cases hperform
      exact .locked caller update hfree.1 hfree.2
    · rw [if_neg hfree] at hperform
      cases hperform
  | load caller readable passphrase =>
    simp only [perform] at hperform
    cases hphase : s.phase caller with
    | idle =>
      rw [hphase] at hperform
      cases hperform
    | loaded update vault =>
      rw [hphase] at hperform
      cases hperform
    | locked update =>
      simp only [hphase] at hperform
      cases hedit : edit update (load P s.file readable passphrase) with
      | error ended =>
        rw [hedit] at hperform
        cases hperform
        exact .ended caller readable passphrase update ended hphase hedit
      | ok vault =>
        rw [hedit] at hperform
        cases hperform
        exact .loaded caller readable passphrase update vault hphase hedit
  | publish caller passphrase salt nonce fault =>
    simp only [perform] at hperform
    cases hphase : s.phase caller with
    | idle =>
      rw [hphase] at hperform
      cases hperform
    | locked update =>
      rw [hphase] at hperform
      cases hperform
    | loaded update vault =>
      simp only [hphase] at hperform
      cases hsave : save P vault passphrase salt nonce fault with
      | error error =>
        rw [hsave] at hperform
        cases hperform
        exact .failed caller passphrase salt nonce fault update vault error hphase hsave
      | ok bytes =>
        rw [hsave] at hperform
        cases hperform
        exact .published caller passphrase salt nonce fault update vault bytes hphase hsave
  | damage bytes =>
    cases hperform
    exact .damaged bytes

/-! ## Runs -/

theorem apply_failed (update : Update) (error : SecretsError) (contents : Contents) :
    (Answer.failed update error).apply contents = contents := by
  cases update <;> rfl

theorem apply_published (update : Update) (contents : Contents) :
    (Answer.published update).apply contents = update.apply contents := by
  cases update <;> rfl

/-- An update that ends at its load leaves the map as it is. -/
theorem apply_ended {update : Update} {loaded : Except SecretsError Vault} {ended : Answer} {contents : Contents}
    (hedit : edit update loaded = .error ended)
    (hloaded : ∀ vault, orEmpty loaded = .ok vault → vault.find = contents) :
    ended.apply contents = contents := by
  rcases edit_answer hedit with ⟨error, _, rfl⟩ | ⟨name, _, rfl, vault, hvault, hfind⟩
  · exact apply_failed update error contents
  · rw [hloaded vault hvault] at hfind
    exact Function.update_eq_self_iff.mpr hfind.symm

@[simp] theorem enter_file (s : State) (caller : Nat) (phase : Phase) : (s.enter caller phase).file = s.file := rfl

@[simp] theorem leave_file (s : State) (caller : Nat) : (s.leave caller).file = s.file := rfl

@[simp] theorem enter_holder (s : State) (caller : Nat) (phase : Phase) :
    (s.enter caller phase).holder = s.holder := rfl

theorem phase_enter (s : State) (caller other : Nat) (phase : Phase) :
    (s.enter caller phase).phase other = if other = caller then phase else s.phase other :=
  Function.update_apply s.phase caller phase other

theorem phase_leave (s : State) (caller other : Nat) :
    (s.leave caller).phase other = if other = caller then .idle else s.phase other :=
  phase_enter s caller other .idle

variable {P : Primitives} {contents : Contents} {s s' : State}

/-- When the holder of the lock leaves, nobody is in a transaction. -/
theorem Inv.alone (inv : Inv P contents s) {caller : Nat} (hbusy : s.phase caller ≠ .idle) (other : Nat) :
    (s.leave caller).phase other = .idle := by
  rw [phase_leave]
  by_cases heq : other = caller
  · rw [if_pos heq]
  · rw [if_neg heq]
    by_contra hother
    exact heq (Option.some.inj ((inv.holder other hother).symm.trans (inv.holder caller hbusy)))

theorem Inv.of_alone (hfile : Holds P s.file contents ∨ ∃ bytes, s.file = some bytes ∧ Damaged P bytes)
    (halone : ∀ caller, s.phase caller = .idle) : Inv P contents s where
  file := hfile
  holder := by
    intro caller hbusy
    exact absurd (halone caller) hbusy
  edited := by
    intro caller update vault hphase
    rw [halone caller] at hphase
    contradiction

theorem Inv.locks (inv : Inv P contents s) (hfree : s.holder = none) (caller : Nat) (update : Update) :
    Inv P contents { s.enter caller (.locked update) with holder := some caller } where
  file := inv.file
  holder := by
    intro other hbusy
    by_cases heq : other = caller
    · rw [heq]
    · have hother := phase_enter s caller other (.locked update)
      rw [if_neg heq] at hother
      have := inv.holder other (hother ▸ hbusy)
      rw [hfree] at this
      contradiction
  edited := by
    intro other update' vault hphase
    have hother := (phase_enter s caller other (.locked update)).symm.trans hphase
    by_cases heq : other = caller
    · rw [if_pos heq] at hother
      contradiction
    · rw [if_neg heq] at hother
      exact inv.edited other update' vault hother

theorem Inv.loads (inv : Inv P contents s) {caller : Nat} (hbusy : s.phase caller ≠ .idle) {update : Update}
    {vault : Vault} (hedited : vault.find = update.apply contents ∧ update.Effective contents) :
    Inv P contents (s.enter caller (.loaded update vault)) where
  file := inv.file
  holder := by
    intro other hother
    rw [phase_enter] at hother
    rw [enter_holder]
    by_cases heq : other = caller
    · rw [heq]
      exact inv.holder caller hbusy
    · rw [if_neg heq] at hother
      exact inv.holder other hother
  edited := by
    intro other update' vault' hphase
    rw [phase_enter] at hphase
    by_cases heq : other = caller
    · rw [if_pos heq] at hphase
      cases hphase
      exact hedited
    · rw [if_neg heq] at hphase
      exact inv.edited other update' vault' hphase

/-- What a step keeps: its answer moves the map, and the file and the callers follow. -/
theorem Inv.steps (ideal : Ideal P) (inv : Inv P contents s) {action : Action}
    (hreads : Distinguishes s action) (hdamage : ∀ bytes, action = .damage bytes → Damaged P bytes)
    (h : step P s action = some s') :
    Inv P ((answer P s action).elim contents fun a => a.apply contents) s' := by
  have hcases := step_cases h
  generalize answer P s action = given at hcases ⊢
  cases hcases with
  | got name readable passphrase => exact inv
  | refused update error =>
    rw [Option.elim_some, apply_failed]
    exact inv
  | locked caller update hidle hfree => exact inv.locks hfree caller update
  | ended caller readable passphrase update ended hphase hedit =>
    have hsame := apply_ended hedit fun vault => load_holds ideal inv.file hreads.missing
    rw [Option.elim_some, hsame]
    exact .of_alone inv.file (inv.alone (by rw [hphase]; nofun))
  | loaded caller readable passphrase update vault hphase hedit =>
    obtain ⟨found, hfound, hedited⟩ := edit_vault hedit
    rw [load_holds ideal inv.file hreads.missing hfound] at hedited
    exact inv.loads (by rw [hphase]; nofun) hedited
  | failed caller passphrase salt nonce fault update vault error hphase hsave =>
    rw [Option.elim_some, apply_failed]
    exact .of_alone inv.file (inv.alone (by rw [hphase]; nofun))
  | published caller passphrase salt nonce fault update vault bytes hphase hsave =>
    obtain ⟨text, _, hbytes⟩ := save_eq_ok hsave
    rw [Option.elim_some, apply_published]
    refine .of_alone (.inl (.inr ⟨text, salt, nonce, vault, bytes, hbytes, rfl, ?_⟩)) ?_
    · exact (inv.edited caller update vault hphase).1
    · exact inv.alone (by rw [hphase]; nofun)
  | damaged bytes => exact ⟨.inr ⟨bytes, rfl, hdamage bytes rfl⟩, inv.holder, inv.edited⟩

/-- What a step of a history must do, the map being that of the steps before it. -/
structure Faithful (P : Primitives) (contents : Contents) (t : State × Action × State) : Prop where
  /-- A successful get returns the value of the last successful set not followed by a delete. -/
  got : ∀ name secret, answer P t.1 t.2.1 = some (.got name (.ok secret)) → contents name = some secret
  /-- A get that opens the file answers as the map does. -/
  answers : ∀ name text vault, t.2.1 = .get name true (.ok text) →
    orEmpty (load P t.1.file true (.ok text)) = .ok vault →
      answer P t.1 t.2.1 = some (.got name ((contents name).elim (.error .notFound) .ok))
  /-- A successful delete tells whether the name was there. -/
  deleted : ∀ name removed, answer P t.1 t.2.1 = some (.deleted name (.ok removed)) →
    removed = (contents name).isSome
  /-- A published file opens under the passphrase it was sealed with, and holds the map with the update. -/
  published : ∀ caller passphrase salt nonce fault update,
    t.2.1 = .publish caller passphrase salt nonce fault → answer P t.1 t.2.1 = some (.published update) →
      ∃ text vault, passphrase = .ok text ∧ load P t.2.2.file true (.ok text) = .ok vault ∧
        vault.find = update.apply contents
  /-- Only damage and a successful update change the file. -/
  unchanged : t.2.2.file ≠ t.1.file →
    (∃ bytes, t.2.1 = .damage bytes) ∨ ∃ update, answer P t.1 t.2.1 = some (.published update)

theorem get_eq {file : Option Bytes} {readable : Bool} {passphrase : Except SecretsError String} {vault : Vault}
    (h : orEmpty (load P file readable passphrase) = .ok vault) (name : Name) :
    get P file readable passphrase name = (vault.find name).elim (.error .notFound) .ok := by
  simp only [get, h]
  cases vault.find name <;> rfl

theorem get_eq_ok {file : Option Bytes} {readable : Bool} {passphrase : Except SecretsError String}
    {name : Name} {secret : String} (h : get P file readable passphrase name = .ok secret) :
    ∃ vault, load P file readable passphrase = .ok vault ∧ vault.find name = some secret := by
  rcases orEmpty_eq (load P file readable passphrase) with ⟨_, hempty⟩ | ⟨_, hloaded⟩
  · rw [get_eq hempty] at h
    contradiction
  · cases hload : load P file readable passphrase with
    | error error =>
      rw [get, hloaded, hload] at h
      contradiction
    | ok vault =>
      rw [get_eq (hloaded.trans hload)] at h
      refine ⟨vault, rfl, ?_⟩
      cases hfind : vault.find name with
      | none =>
        rw [hfind] at h
        contradiction
      | some found =>
        rw [hfind] at h
        exact congrArg some (Except.ok.inj h)

/-- Only a get is answered by `got`. -/
theorem answer_got {action : Action} (h : step P s action = some s') {name : Name}
    {result : Except SecretsError String} (hanswer : answer P s action = some (.got name result)) :
    ∃ readable passphrase, action = .get name readable passphrase ∧
      result = get P s.file readable passphrase name := by
  have hcases := step_cases h
  generalize answer P s action = given at hcases hanswer
  cases hcases with
  | got name' readable passphrase =>
    cases hanswer
    exact ⟨readable, passphrase, rfl, rfl⟩
  | refused update error => cases update <;> cases hanswer
  | locked caller update hidle hfree => cases hanswer
  | ended caller readable passphrase update ended hphase hedit =>
    rcases edit_answer hedit with ⟨error, _, rfl⟩ | ⟨_, _, rfl, _⟩
    · cases update <;> cases hanswer
    · cases hanswer
  | loaded caller readable passphrase update vault hphase hedit => cases hanswer
  | failed caller passphrase salt nonce fault update vault error hphase hsave => cases update <;> cases hanswer
  | published caller passphrase salt nonce fault update vault bytes hphase hsave =>
    cases update <;> cases hanswer
  | damaged bytes => cases hanswer

/-- A delete ends at its load without the record, or at its publication. -/
theorem answer_deleted {action : Action} (h : step P s action = some s') {name : Name} {removed : Bool}
    (hanswer : answer P s action = some (.deleted name (.ok removed))) :
    (∃ caller readable passphrase vault, action = .load caller readable passphrase ∧ removed = false ∧
      orEmpty (load P s.file readable passphrase) = .ok vault ∧ vault.find name = none) ∨
    ∃ caller vault, s.phase caller = .loaded (.delete name) vault ∧ removed = true := by
  have hcases := step_cases h
  generalize answer P s action = given at hcases hanswer
  cases hcases with
  | got name' readable passphrase => cases hanswer
  | refused update error => cases update <;> cases hanswer
  | locked caller update hidle hfree => cases hanswer
  | ended caller readable passphrase update ended hphase hedit =>
    rcases edit_answer hedit with ⟨error, _, rfl⟩ | ⟨_, _, rfl, vault, hvault, hfind⟩
    · cases update <;> cases hanswer
    · cases hanswer
      exact .inl ⟨caller, readable, passphrase, vault, rfl, rfl, hvault, hfind⟩
  | loaded caller readable passphrase update vault hphase hedit => cases hanswer
  | failed caller passphrase salt nonce fault update vault error hphase hsave => cases update <;> cases hanswer
  | published caller passphrase salt nonce fault update vault bytes hphase hsave =>
    cases update <;> cases hanswer
    exact .inr ⟨caller, vault, hphase, rfl⟩
  | damaged bytes => cases hanswer

theorem published_injective {update update' : Update} (h : Answer.published update = .published update') :
    update = update' := by
  cases update <;> cases update' <;> cases h <;> rfl

theorem Inv.faithful (ideal : Ideal P) (inv : Inv P contents s) {action : Action}
    (hreads : Distinguishes s action) (h : step P s action = some s') :
    Faithful P contents (s, action, s') where
  got := by
    intro name secret hanswer
    obtain ⟨readable, passphrase, rfl, hget⟩ := answer_got h hanswer
    obtain ⟨vault, hload, hfind⟩ := get_eq_ok hget.symm
    have hmissing : load P s.file readable passphrase = .error (.io true) → s.file = none := by
      rw [hload]
      nofun
    have hopen : orEmpty (load P s.file readable passphrase) = .ok vault := by rw [hload]; rfl
    rwa [load_holds ideal inv.file hmissing hopen] at hfind
  answers := by
    rintro name text vault rfl hload
    have hmissing : load P s.file true (.ok text) = .error (.io true) → s.file = none := by
      intro hmissing
      rcases load_missing hmissing with hnone | ⟨_, htext, _⟩
      · exact hnone
      · contradiction
    rw [← load_holds ideal inv.file hmissing hload]
    exact congrArg (fun result => some (Answer.got name result)) (get_eq hload name)
  deleted := by
    intro name removed hanswer
    rcases answer_deleted h hanswer with ⟨caller, readable, passphrase, vault, rfl, rfl, hload, hfind⟩ |
      ⟨caller, vault, hphase, rfl⟩
    · rw [load_holds ideal inv.file hreads.missing hload] at hfind
      rw [hfind]
      rfl
    · exact (Option.isSome_iff_ne_none.mpr (inv.edited caller _ vault hphase).2).symm
  published := by
    intro caller passphrase salt nonce fault update haction hanswer
    have hcases := step_cases h
    subst haction
    generalize answer P s (.publish caller passphrase salt nonce fault) = given at hcases hanswer
    cases hcases with
    | failed _ _ _ _ _ update' _ error _ _ => cases update <;> cases update' <;> cases hanswer
    | published _ _ _ _ _ update' vault bytes hphase hsave =>
      obtain ⟨text, htext, hbytes⟩ := save_eq_ok hsave
      have hupdate := published_injective (Option.some.inj hanswer)
      subst hupdate
      exact ⟨text, vault, htext, openBytes_saveBytes ideal hbytes, (inv.edited caller _ vault hphase).1⟩
  unchanged := by
    intro hfile
    have hcases := step_cases h
    generalize answer P s action = given at hcases ⊢
    cases hcases with
    | damaged bytes => exact .inl ⟨bytes, rfl⟩
    | published caller passphrase salt nonce fault update vault bytes hphase hsave => exact .inr ⟨update, rfl⟩
    | _ => exact absurd rfl hfile

/-- Nobody is in a transaction. -/
def Idle (s : State) : Prop := s.holder = none ∧ ∀ caller, s.phase caller = .idle

/-- In every run the callers see one map, as long as no load of a vault is told by its passphrase
that a file is missing. The cipher being ideal, damage leaves bytes that open under no passphrase. -/
theorem vault_faithful (ideal : Ideal P) {start : Contents} (hstart : Holds P s.file start) (hidle : Idle s)
    {actions : List Action} (hdamage : ∀ bytes, Action.damage bytes ∈ actions → Damaged P bytes)
    (hreads : ∀ t ∈ trace (step P) s actions, Distinguishes t.1 t.2.1)
    {before after : List (State × Action × State)} {t : State × Action × State}
    (ht : trace (step P) s actions = before ++ t :: after) :
    Faithful P (latest P start before) t := by
  have hkeeps : ∀ t ∈ trace (step P) s actions,
      Distinguishes t.1 t.2.1 ∧ ∀ bytes, t.2.1 = .damage bytes → Damaged P bytes := by
    intro t ht
    refine ⟨hreads t ht, ?_⟩
    intro bytes haction
    exact hdamage bytes (haction ▸ act_mem_of_mem_trace ht)
  have hinv := @trace_history _ _
    (fun s action => Distinguishes s action ∧ ∀ bytes, action = .damage bytes → Damaged P bytes) (step P)
    (fun s taken => Inv P (latest P start taken) s)
    (fun s taken action s' inv hkeep h => by
      rw [latest_append]
      exact inv.steps ideal hkeep.1 hkeep.2 h)
    actions s [] (Inv.of_alone (.inl hstart) hidle.2) hkeeps before after t ht
  exact hinv.1.faithful ideal (hreads t (ht ▸ List.mem_append_cons_self)) hinv.2

/-! ## A vault with one record -/

namespace Sample

def vault : Vault := ⟨[⟨"svc", "a", "v"⟩]⟩

/-- The vault as JSON. -/
def payload : Bytes :=
  [123, 34, 114, 101, 99, 111, 114, 100, 115, 34, 58, 91, 123, 34, 115, 101, 114, 118, 105, 99,
    101, 34, 58, 34, 115, 118, 99, 34, 44, 34, 97, 99, 99, 111, 117, 110, 116, 34, 58, 34, 97, 34,
    44, 34, 115, 101, 99, 114, 101, 116, 34, 58, 34, 118, 34, 125, 93, 125]

def tag (key : Bytes) : Bytes := (key ++ List.replicate tagLen 0).take tagLen

/-- A cipher that leaves the message readable and ends with a tag. -/
def primitives : Primitives where
  deriveKey := fun text salt => if text = "key" then salt ++ salt else salt
  encrypt := fun key _ _ message => some (message ++ tag key)
  decrypt := fun key _ _ cipher =>
    if cipher.drop (cipher.length - tagLen) = tag key then some (cipher.take (cipher.length - tagLen)) else none
  toVec := fun v => if v = vault then some payload else none
  fromSlice := fun bytes => if bytes = payload then some vault else none

theorem tag_length (key : Bytes) : (tag key).length = tagLen := by
  rw [tag, List.length_take, List.length_append, List.length_replicate]
  omega

theorem ideal : Ideal primitives where
  opens := by
    intro key nonce data message cipher h
    obtain rfl := Option.some.inj h
    have hlen : (message ++ tag key).length - tagLen = message.length := by
      rw [List.length_append, tag_length, Nat.add_sub_cancel]
    simp only [primitives, hlen, List.drop_left, List.take_left, if_true]
  binds := by
    intro key nonce data message cipher key' nonce' data' message' h h'
    obtain rfl := Option.some.inj h
    have hlen : (message ++ tag key).length - tagLen = message.length := by
      rw [List.length_append, tag_length, Nat.add_sub_cancel]
    simp only [primitives, hlen, List.take_left] at h'
    split at h'
    · exact (Option.some.inj h').symm
    · contradiction
  tagged := by
    intro key nonce data message cipher h
    obtain rfl := Option.some.inj h
    rw [List.length_append, tag_length]
    omega
  reads := by
    intro v bytes h
    simp only [primitives] at h ⊢
    split at h
    next hv =>
      cases h
      rw [if_pos rfl, hv]
    next => contradiction

def fresh : State := ⟨none, none, fun _ => .idle⟩

def salt : Salt := ⟨List.replicate 16 7, rfl⟩

def nonce : Nonce := ⟨List.replicate 12 9, rfl⟩

/-- One caller sets a secret. -/
def store : List Action :=
  [.lock 0 (.set ("svc", "a") "v"), .load 0 true (.ok "key"), .publish 0 (.ok "key") salt nonce none]

/-- Another deletes it, with a provider whose passphrase file is missing. -/
def erase : List Action := [.lock 1 (.delete ("svc", "a")), .load 1 true (.error (.io true))]

def stored : State := (run (step primitives) fresh store).getD fresh

def locked : State := (step primitives stored (.lock 1 (.delete ("svc", "a")))).getD fresh

end Sample

namespace Sample

theorem store_distinguishes : ∀ t ∈ trace (step primitives) fresh (store ++ [.get ("svc", "a") true (.ok "key")]),
    Distinguishes t.1 t.2.1 := by
  rintro ⟨s, action, s'⟩ ht
  have haction := act_mem_of_mem_trace ht
  simp only [store, List.cons_append, List.nil_append, List.mem_cons, List.not_mem_nil, or_false] at haction
  rcases haction with rfl | rfl | rfl | rfl <;> trivial

end Sample

open Sample in
/-- A get after the set, under the right passphrase. -/
theorem vault_faithful_sample :
    Faithful primitives (latest primitives (fun _ => none) (trace (step primitives) fresh store))
      (stored, .get ("svc", "a") true (.ok "key"), stored) :=
  @vault_faithful primitives fresh ideal (fun _ => none) (.inl ⟨rfl, rfl⟩) ⟨rfl, fun _ => rfl⟩
    (store ++ [.get ("svc", "a") true (.ok "key")]) (by simp [store]) store_distinguishes
    _ [] _ rfl

open Sample in
/-- The delete succeeds, and finds nothing, although the secret is there. -/
theorem vault_unfaithful :
    trace (step primitives) fresh (store ++ erase) =
      (trace (step primitives) fresh store ++ [(stored, .lock 1 (.delete ("svc", "a")), locked)]) ++
        (locked, .load 1 true (.error (.io true)), locked.leave 1) :: [] ∧
    ¬Faithful primitives (latest primitives (fun _ => none)
        (trace (step primitives) fresh store ++ [(stored, .lock 1 (.delete ("svc", "a")), locked)]))
      (locked, .load 1 true (.error (.io true)), locked.leave 1) := by
  refine ⟨rfl, ?_⟩
  intro h
  exact Bool.false_ne_true (h.deleted ("svc", "a") false rfl)

end SupraHarness.Secrets
