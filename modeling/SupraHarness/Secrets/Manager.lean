import SupraHarness.Secrets.Vaults

/-!
# The secret manager

A manager has found the keyring available or not when it was opened, and calls go to the two stores
by that choice. The keyring is a map, and so is the vault as its callers see it. Managers of any
number of sessions take turns on the same two stores.
-/
namespace SupraHarness.Secrets.Manager

open Run

structure Stores where
  keyring : Contents
  file : Contents
  fileExists : Bool

inductive Call where
  | get (name : Name)
  | set (name : Name) (secret : String)
  | delete (name : Name)
  deriving DecidableEq, Repr

/-- A call of a manager, with what goes wrong in either store. -/
structure Action where
  keyringAvailable : Bool
  call : Call
  keyringFails : Bool
  fileFault : Option SecretsError
  deriving DecidableEq, Repr

/-- The error of a search that found nothing. -/
def notFound (s : Stores) (keyringAvailable : Bool) : SecretsError :=
  if !keyringAvailable && !s.fileExists then .noStore else .notFound

def fileGet (s : Stores) (a : Action) (name : Name) : Except SecretsError String :=
  match a.fileFault with
  | some error => .error error
  | none =>
    match s.file name with
    | none => .error (notFound s a.keyringAvailable)
    | some secret => .ok secret

/-- The stores are searched in order. -/
def get (s : Stores) (a : Action) (name : Name) : Except SecretsError String :=
  if a.keyringAvailable then
    if a.keyringFails then .error .keyring
    else
      match s.keyring name with
      | some secret => .ok secret
      | none => fileGet s a name
  else fileGet s a name

/-- The primary store is written. -/
def set (s : Stores) (a : Action) (name : Name) (secret : String) : Stores × Except SecretsError Unit :=
  if a.keyringAvailable then
    if a.keyringFails then (s, .error .keyring)
    else ({ s with keyring := Function.update s.keyring name (some secret) }, .ok ())
  else
    match a.fileFault with
    | some error => (s, .error error)
    | none => ({ s with file := Function.update s.file name (some secret), fileExists := true }, .ok ())

def fileDelete (s : Stores) (a : Action) (name : Name) : Stores × Except SecretsError Bool :=
  match a.fileFault with
  | some error => (s, .error error)
  | none => ({ s with file := Function.update s.file name none }, .ok (s.file name).isSome)

def combineDeleteResults (primaryRemoved : Bool) (fallbackRemoved : Except SecretsError Bool) :
    Except SecretsError Bool :=
  match fallbackRemoved with
  | .error error => .error error
  | .ok removed => .ok (primaryRemoved || removed)

/-- Both stores are cleared when the keyring is available. -/
def delete (s : Stores) (a : Action) (name : Name) : Stores × Except SecretsError Bool :=
  if a.keyringAvailable then
    if a.keyringFails then (s, .error .keyring)
    else
      let removed := (s.keyring name).isSome
      let cleared := fileDelete { s with keyring := Function.update s.keyring name none } a name
      (cleared.1, combineDeleteResults removed cleared.2)
  else fileDelete s a name

def perform (s : Stores) (a : Action) : Stores × Answer :=
  match a.call with
  | .get name => (s, .got name (get s a name))
  | .set name secret => ((set s a name secret).1, .set name secret (set s a name secret).2)
  | .delete name => ((delete s a name).1, .deleted name (delete s a name).2)

def step (s : Stores) (a : Action) : Option Stores := some (perform s a).1

/-- The value of the last successful set of each name, none after a successful delete. -/
def latest (start : Contents) (taken : List (Stores × Action × Stores)) : Contents :=
  taken.foldl (fun contents t => (perform t.1 t.2.1).2.apply contents) start

theorem latest_append (start : Contents) (taken : List (Stores × Action × Stores))
    (t : Stores × Action × Stores) :
    latest start (taken ++ [t]) = (perform t.1 t.2.1).2.apply (latest start taken) := by
  rw [latest, List.foldl_append]
  rfl

/-- A set or a delete that succeeded. -/
def Succeeds : Answer → Prop
  | .set _ _ (.ok _) => True
  | .deleted _ (.ok _) => True
  | _ => False

/-- What a call must do, the map being that of the calls before it. -/
structure Faithful (contents : Contents) (t : Stores × Action × Stores) : Prop where
  /-- After a successful set or delete no credential lives in both of the stores that are usable. -/
  once : Succeeds (perform t.1 t.2.1).2 → t.2.1.keyringAvailable = true →
    ∀ name, t.2.2.keyring name = none ∨ t.2.2.file name = none
  /-- A successful get returns the value of the last successful set. -/
  got : ∀ name secret, (perform t.1 t.2.1).2 = .got name (.ok secret) → contents name = some secret
  /-- A get succeeds where the store that holds the credential is usable and nothing fails. -/
  found : ∀ name secret, t.2.1.call = .get name → t.2.1.keyringFails = false → t.2.1.fileFault = none →
    (t.2.1.keyringAvailable = true ∧ t.1.keyring name = some secret ∨ t.1.file name = some secret) →
      (perform t.1 t.2.1).2 = .got name (.ok secret)

/-- Every call of a run is faithful. -/
def FaithfulRun (start : Contents) (s : Stores) (actions : List Action) : Prop :=
  ∀ before t after, trace step s actions = before ++ t :: after → Faithful (latest start before) t

/-- No credential lives in both stores, and what either holds is what the map says. -/
structure Consistent (contents : Contents) (s : Stores) : Prop where
  once : ∀ name, s.keyring name = none ∨ s.file name = none
  keyring : ∀ name secret, s.keyring name = some secret → contents name = some secret
  file : ∀ name secret, s.file name = some secret → contents name = some secret

/-- A call that reaches its primary store leaves no copy in the other one: a set finds none there,
and a delete without the keyring finds none in the keyring. -/
def Clear (s : Stores) (a : Action) : Prop :=
  match a.call with
  | .get _ => True
  | .set name _ =>
    if a.keyringAvailable then a.keyringFails = false → s.file name = none
    else a.fileFault = none → s.keyring name = none
  | .delete name => a.keyringAvailable = true ∨ (a.fileFault = none → s.keyring name = none)

/-! ## One call -/

section Call

variable {contents : Contents} {s : Stores} {a : Action}

theorem fileGet_eq_ok {name : Name} {secret : String} (h : fileGet s a name = .ok secret) :
    s.file name = some secret := by
  rw [fileGet] at h
  cases hfault : a.fileFault with
  | some error =>
    rw [hfault] at h
    contradiction
  | none =>
    cases hfile : s.file name with
    | none =>
      simp only [hfault, hfile] at h
      contradiction
    | some found =>
      simp only [hfault, hfile] at h
      exact congrArg some (Except.ok.inj h)

theorem get_eq_ok {name : Name} {secret : String} (h : get s a name = .ok secret) :
    s.keyring name = some secret ∨ s.file name = some secret := by
  rw [get] at h
  cases hkeyring : a.keyringAvailable with
  | false =>
    rw [hkeyring, if_neg Bool.false_ne_true] at h
    exact .inr (fileGet_eq_ok h)
  | true =>
    rw [hkeyring, if_pos rfl] at h
    cases hfails : a.keyringFails with
    | true =>
      rw [hfails, if_pos rfl] at h
      contradiction
    | false =>
      rw [hfails, if_neg Bool.false_ne_true] at h
      cases hfound : s.keyring name with
      | none =>
        rw [hfound] at h
        exact .inr (fileGet_eq_ok h)
      | some found =>
        rw [hfound] at h
        exact .inl (congrArg some (Except.ok.inj h))

/-- A map with one name overwritten in a store answers as before elsewhere. -/
theorem update_some {map contents : Contents} (h : ∀ name secret, map name = some secret → contents name = some secret)
    (name : Name) (value : Option String) (name' : Name) (secret : String)
    (hsome : Function.update map name value name' = some secret) :
    Function.update contents name value name' = some secret := by
  by_cases heq : name' = name
  · subst heq
    rwa [Function.update_self] at hsome ⊢
  · rw [Function.update_of_ne heq] at hsome ⊢
    exact h name' secret hsome

/-- A store without the name does not notice that the name changes in the map. -/
theorem other_some {map contents : Contents} (h : ∀ name secret, map name = some secret → contents name = some secret)
    {name : Name} (hnone : map name = none) (value : Option String) (name' : Name) (secret : String)
    (hsome : map name' = some secret) : Function.update contents name value name' = some secret := by
  by_cases heq : name' = name
  · subst heq
    rw [hnone] at hsome
    contradiction
  · rw [Function.update_of_ne heq]
    exact h name' secret hsome

theorem forget_some {map contents : Contents} (h : ∀ name secret, map name = some secret → contents name = some secret)
    (name name' : Name) (secret : String) (hsome : Function.update map name none name' = some secret) :
    contents name' = some secret := by
  by_cases heq : name' = name
  · subst heq
    rw [Function.update_self] at hsome
    contradiction
  · rw [Function.update_of_ne heq] at hsome
    exact h name' secret hsome

/-- A name that is overwritten in one of two maps is none in the other. -/
theorem once_update {map other : Contents} (h : ∀ name, map name = none ∨ other name = none) {name : Name}
    {value : Option String} (hnone : value = none ∨ other name = none) (name' : Name) :
    Function.update map name value name' = none ∨ other name' = none := by
  by_cases heq : name' = name
  · subst heq
    rwa [Function.update_self]
  · rw [Function.update_of_ne heq]
    exact h name'

theorem Consistent.setKeyring (h : Consistent contents s) {name : Name} (hfile : s.file name = none)
    (secret : String) :
    Consistent (Function.update contents name (some secret))
      { s with keyring := Function.update s.keyring name (some secret) } where
  once := once_update h.once (.inr hfile)
  keyring := update_some h.keyring name (some secret)
  file := other_some h.file hfile (some secret)

theorem Consistent.setFile (h : Consistent contents s) {name : Name} (hkeyring : s.keyring name = none)
    (secret : String) (fileExists : Bool) :
    Consistent (Function.update contents name (some secret))
      { s with file := Function.update s.file name (some secret), fileExists := fileExists } where
  once := fun name' => (once_update (fun name => (h.once name).symm) (.inr hkeyring) name').symm
  keyring := other_some h.keyring hkeyring (some secret)
  file := update_some h.file name (some secret)

theorem Consistent.deleteFile (h : Consistent contents s) {name : Name} (hkeyring : s.keyring name = none) :
    Consistent (Function.update contents name none) { s with file := Function.update s.file name none } where
  once := fun name' => (once_update (fun name => (h.once name).symm) (.inl rfl) name').symm
  keyring := other_some h.keyring hkeyring none
  file := update_some h.file name none

/-- The keyring may forget a name while the map still has it. -/
theorem Consistent.forget (h : Consistent contents s) (name : Name) :
    Consistent contents { s with keyring := Function.update s.keyring name none } where
  once := once_update h.once (.inl rfl)
  keyring := forget_some h.keyring name
  file := h.file

theorem fileDelete_consistent (h : Consistent contents s) {name : Name}
    (hkeyring : a.fileFault = none → s.keyring name = none) (primaryRemoved : Bool) :
    Consistent ((Answer.deleted name (combineDeleteResults primaryRemoved (fileDelete s a name).2)).apply contents)
      (fileDelete s a name).1 := by
  rw [fileDelete]
  cases hfault : a.fileFault with
  | some error => exact h
  | none => exact h.deleteFile (hkeyring hfault)

theorem combine_false (result : Except SecretsError Bool) : combineDeleteResults false result = result := by
  cases result <;> rfl

/-- A clear call keeps the stores consistent with the map it moves. -/
theorem Consistent.perform (h : Consistent contents s) (hclear : Clear s a) :
    Consistent ((perform s a).2.apply contents) (perform s a).1 := by
  obtain ⟨available, call, keyringFails, fileFault⟩ := a
  cases call with
  | get name => exact h
  | set name secret =>
    cases available with
    | true =>
      cases keyringFails with
      | true => exact h
      | false => exact h.setKeyring (hclear rfl) secret
    | false =>
      cases fileFault with
      | some error => exact h
      | none => exact h.setFile (hclear rfl) secret true
  | delete name =>
    cases available with
    | true =>
      cases keyringFails with
      | true => exact h
      | false =>
        refine fileDelete_consistent (h.forget name) ?_ _
        intro _
        exact Function.update_self name none s.keyring
    | false =>
      have hdelete := fileDelete_consistent h (hclear.resolve_left Bool.false_ne_true) false
      rw [combine_false] at hdelete
      exact hdelete

theorem fileGet_found (hfault : a.fileFault = none) {name : Name} {secret : String}
    (hfile : s.file name = some secret) : fileGet s a name = .ok secret := by
  simp only [fileGet, hfault, hfile]

theorem get_keyring (havailable : a.keyringAvailable = true) (hkeyring : a.keyringFails = false) {name : Name}
    {secret : String} (hsome : s.keyring name = some secret) : get s a name = .ok secret := by
  rw [get, havailable, hkeyring, if_pos rfl, if_neg Bool.false_ne_true, hsome]

theorem Consistent.get_found (h : Consistent contents s) (hkeyring : a.keyringFails = false)
    (hfault : a.fileFault = none) {name : Name} {secret : String}
    (hheld : a.keyringAvailable = true ∧ s.keyring name = some secret ∨ s.file name = some secret) :
    get s a name = .ok secret := by
  rcases hheld with ⟨havailable, hsome⟩ | hsome
  · exact get_keyring havailable hkeyring hsome
  · rw [get]
    cases havailable : a.keyringAvailable with
    | false =>
      rw [if_neg Bool.false_ne_true]
      exact fileGet_found hfault hsome
    | true =>
      have hnone : s.keyring name = none := (h.once name).resolve_right (by rw [hsome]; nofun)
      rw [hkeyring, if_pos rfl, if_neg Bool.false_ne_true, hnone]
      exact fileGet_found hfault hsome

theorem perform_got {name : Name} {result : Except SecretsError String}
    (hanswer : (Manager.perform s a).2 = .got name result) : result = get s a name := by
  obtain ⟨available, call, keyringFails, fileFault⟩ := a
  cases call with
  | get name' =>
    injection hanswer with hname hget
    subst hname
    exact hget.symm
  | set name' secret' => cases hanswer
  | delete name' => cases hanswer

theorem perform_get {name : Name} (hcall : a.call = .get name) :
    (Manager.perform s a).2 = .got name (get s a name) := by
  obtain ⟨available, call, keyringFails, fileFault⟩ := a
  cases hcall
  rfl

theorem Consistent.faithful (h : Consistent contents s) (hclear : Clear s a) :
    Faithful contents (s, a, (Manager.perform s a).1) where
  once := by
    intro _ _ name
    exact (h.perform hclear).once name
  got := by
    intro name secret hanswer
    rcases get_eq_ok (perform_got hanswer).symm with hkeyring | hfile
    · exact h.keyring name secret hkeyring
    · exact h.file name secret hfile
  found := by
    intro name secret hcall hkeyring hfault hheld
    rw [perform_get hcall, h.get_found hkeyring hfault hheld]

/-- A call that is not clear leaves a second copy behind, which the call itself or the next one shows. -/
theorem spoiled (hclear : ¬Clear s a) : ∃ next : Action,
    ¬Faithful contents (s, a, (Manager.perform s a).1) ∨
      ¬Faithful ((Manager.perform s a).2.apply contents)
        ((Manager.perform s a).1, next, (Manager.perform (Manager.perform s a).1 next).1) := by
  obtain ⟨available, call, keyringFails, fileFault⟩ := a
  cases call with
  | get name => exact absurd trivial hclear
  | set name secret =>
    cases available with
    | true =>
      obtain ⟨hfails, hfile⟩ := Classical.not_imp.mp hclear
      obtain rfl : keyringFails = false := hfails
      refine ⟨⟨true, .get name, false, none⟩, .inl ?_⟩
      intro hfaithful
      rcases hfaithful.once trivial rfl name with hnone | hnone
      · exact Option.some_ne_none secret ((Function.update_self name _ s.keyring).symm.trans hnone)
      · exact hfile hnone
    | false =>
      obtain ⟨hfault, hkeyring⟩ := Classical.not_imp.mp hclear
      obtain rfl : fileFault = none := hfault
      refine ⟨⟨true, .set name secret, false, none⟩, .inr ?_⟩
      intro hfaithful
      rcases hfaithful.once trivial rfl name with hnone | hnone
      · exact Option.some_ne_none secret ((Function.update_self name _ s.keyring).symm.trans hnone)
      · exact Option.some_ne_none secret ((Function.update_self name _ s.file).symm.trans hnone)
  | delete name =>
    obtain ⟨havailable, hrest⟩ := not_or.mp hclear
    obtain ⟨hfault, hkeyring⟩ := Classical.not_imp.mp hrest
    obtain rfl : fileFault = none := hfault
    obtain rfl : available = false := Bool.eq_false_iff.mpr havailable
    obtain ⟨old, hold⟩ := Option.ne_none_iff_exists'.mp hkeyring
    refine ⟨⟨true, .get name, false, none⟩, .inr ?_⟩
    intro hfaithful
    have hget : (Manager.perform (Manager.perform s ⟨false, .delete name, keyringFails, none⟩).1
        ⟨true, .get name, false, none⟩).2 = .got name (.ok old) :=
      (perform_get rfl).trans (congrArg (Answer.got name) (get_keyring rfl rfl hold))
    have hnone : (Manager.perform s ⟨false, .delete name, keyringFails, none⟩).2.apply contents name = none := by
      simp [Manager.perform, delete, fileDelete, Answer.apply]
    exact Option.some_ne_none old ((hfaithful.got name old hget).symm.trans hnone)

end Call

/-- Managers that write only where the other store has no copy behave as one map, and any other
call can be followed by one that shows the difference. -/
theorem manager_faithful {start : Contents} {s : Stores} (hstart : Consistent start s) {actions : List Action}
    (hclear : ∀ t ∈ trace step s actions, Clear t.1 t.2.1) :
    FaithfulRun start s actions ∧
      ∀ s', run step s actions = some s' → ∀ action, ¬Clear s' action →
        ∃ next, ¬FaithfulRun start s (actions ++ [action, next]) := by
  constructor
  · intro before t after ht
    have hinv := @trace_history _ _ Clear step (fun s taken => Consistent (latest start taken) s)
      (fun s taken action s' h hclear hstep => by
        obtain rfl := Option.some.inj hstep
        rw [latest_append]
        exact h.perform hclear)
      actions s [] hstart hclear before after t ht
    have hfaithful := hinv.1.faithful (hclear t (ht ▸ List.mem_append_cons_self))
    rwa [Option.some.inj hinv.2] at hfaithful
  · intro s' hrun action hbad
    obtain ⟨next, hspoiled⟩ := @spoiled (latest start (trace step s actions)) s' action hbad
    refine ⟨next, ?_⟩
    intro hfaithful
    have htrace := trace_append hrun [action, next]
    rcases hspoiled with hspoiled | hspoiled
    · exact hspoiled (hfaithful _ _ _ htrace)
    · have hlast : trace step s (actions ++ [action, next]) =
          (trace step s actions ++ [(s', action, (perform s' action).1)]) ++
            ((perform s' action).1, next, (perform (perform s' action).1 next).1) :: [] := by
        rw [htrace, List.append_assoc]
        rfl
      have := hfaithful _ _ _ hlast
      rw [latest_append] at this
      exact hspoiled this

def empty : Stores := ⟨fun _ => none, fun _ => none, false⟩

def setHeadless : Action := ⟨false, .set ("svc", "a") "new", false, none⟩

def setKeyring : Action := ⟨true, .set ("svc", "a") "old", false, none⟩

def getKeyring : Action := ⟨true, .get ("svc", "a"), false, none⟩

theorem headless_clear : ∀ t ∈ trace step empty [setHeadless, getKeyring], Clear t.1 t.2.1 := by
  intro t ht
  rcases List.mem_cons.mp ht with rfl | ht
  · exact fun _ => rfl
  · rw [List.mem_singleton.mp ht]
    trivial

/-- A secret set without the keyring, and found in a session with it. -/
theorem manager_faithful_headless : FaithfulRun (fun _ => none) empty [setHeadless, getKeyring] :=
  (@manager_faithful (fun _ => none) empty ⟨fun _ => .inl rfl, nofun, nofun⟩ [setHeadless, getKeyring]
    headless_clear).1

/-- A secret set with the keyring and replaced without it: a session with the keyring reads the old one. -/
theorem manager_stale : ¬FaithfulRun (fun _ => none) empty [setKeyring, setHeadless, getKeyring] := by
  intro h
  have htrace : trace step empty [setKeyring, setHeadless, getKeyring] =
      trace step empty [setKeyring, setHeadless] ++
        [((run step empty [setKeyring, setHeadless]).getD empty, getKeyring,
          (run step empty [setKeyring, setHeadless]).getD empty)] := rfl
  have hgot := (h _ _ _ htrace).got ("svc", "a") "old" rfl
  have hnew : latest (fun _ => none) (trace step empty [setKeyring, setHeadless]) ("svc", "a") = some "new" := rfl
  exact absurd (hnew.symm.trans hgot) (by decide)

end SupraHarness.Secrets.Manager
