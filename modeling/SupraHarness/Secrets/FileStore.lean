import Mathlib.Data.List.Basic

/-!
# The encrypted file store

A vault is a list of records, sealed under a key derived from a passphrase and a salt. The file is
the magic, the salt, the nonce and the ciphertext. The cipher, the key derivation and the payload's
text come from other crates and are parameters; what the store relies on is collected in `Ideal`.
-/
namespace SupraHarness.Secrets

abbrev Bytes := List UInt8

/-- `SUPRA1`, also the additional authenticated data. -/
def magic : Bytes := [0x53, 0x55, 0x50, 0x52, 0x41, 0x31]

def saltLen : Nat := 16

def nonceLen : Nat := 12

def tagLen : Nat := 16

abbrev Salt := { salt : Bytes // salt.length = saltLen }

abbrev Nonce := { nonce : Bytes // nonce.length = nonceLen }

/-- A service and an account. -/
abbrev Name := String × String

structure Record where
  service : String
  account : String
  secret : String
  deriving DecidableEq, Repr

structure Vault where
  records : List Record
  deriving DecidableEq, Repr

inductive SecretsError where
  | noStore
  | crypto
  | notFound
  | io (missing : Bool)
  | keyring
  deriving DecidableEq, Repr

/-- What the store takes from other crates. -/
structure Primitives where
  deriveKey : String → Bytes → Bytes
  encrypt : Bytes → Bytes → Bytes → Bytes → Option Bytes
  decrypt : Bytes → Bytes → Bytes → Bytes → Option Bytes
  toVec : Vault → Option Bytes
  fromSlice : Bytes → Option Vault

/-- The authenticated encryption is ideal: a ciphertext opens under the key, nonce and data it was
made with, under any others to nothing else, and is never shorter than the tag. The payload's text
reads back. -/
structure Ideal (P : Primitives) : Prop where
  opens : ∀ {key nonce data message cipher}, P.encrypt key nonce data message = some cipher →
    P.decrypt key nonce data cipher = some message
  binds : ∀ {key nonce data message cipher key' nonce' data' message'},
    P.encrypt key nonce data message = some cipher → P.decrypt key' nonce' data' cipher = some message' →
      message' = message
  tagged : ∀ {key nonce data message cipher}, P.encrypt key nonce data message = some cipher →
    tagLen ≤ cipher.length
  reads : ∀ {vault payload}, P.toVec vault = some payload → P.fromSlice payload = some vault

/-! ## The records -/

namespace Record

def named (name : Name) (record : Record) : Bool := record.service = name.1 ∧ record.account = name.2

end Record

namespace Vault

def empty : Vault := ⟨[]⟩

def find (vault : Vault) (name : Name) : Option String :=
  (vault.records.find? (Record.named name)).map Record.secret

/-- The first record of the name is replaced, or a new one pushed. -/
def setIn (name : Name) (secret : String) : List Record → List Record
  | [] => [⟨name.1, name.2, secret⟩]
  | record :: records =>
    if record.named name then ⟨record.service, record.account, secret⟩ :: records
    else record :: setIn name secret records

def set (vault : Vault) (name : Name) (secret : String) : Vault := ⟨setIn name secret vault.records⟩

def remove (vault : Vault) (name : Name) : Vault :=
  ⟨vault.records.filter fun record => !record.named name⟩

end Vault

/-! ## The file -/

section File

variable (P : Primitives)

/-- The bytes of a file that holds the vault. -/
def saveBytes (passphrase : String) (salt : Salt) (nonce : Nonce) (vault : Vault) : Except SecretsError Bytes :=
  match P.toVec vault with
  | none => .error .crypto
  | some payload =>
    match P.encrypt (P.deriveKey passphrase salt.1) nonce.1 magic payload with
    | none => .error .crypto
    | some cipher => .ok (magic ++ salt.1 ++ nonce.1 ++ cipher)

/-- The vault in the bytes of a file. The passphrase is asked for once the header has been looked at,
and what goes wrong there is passed on. -/
def openBytes (bytes : Bytes) (passphrase : Except SecretsError String) : Except SecretsError Vault :=
  if bytes.length < magic.length + saltLen + nonceLen + tagLen then .error .crypto
  else if bytes.take magic.length ≠ magic then .error .crypto
  else
    let body := bytes.drop magic.length
    let salt := body.take saltLen
    let rest := body.drop saltLen
    let nonce := rest.take nonceLen
    let cipher := rest.drop nonceLen
    match passphrase with
    | .error error => .error error
    | .ok passphrase =>
      match P.decrypt (P.deriveKey passphrase salt) nonce magic cipher with
      | none => .error .crypto
      | some payload =>
        match P.fromSlice payload with
        | none => .error .crypto
        | some vault => .ok vault

/-- The bytes are long enough for a vault and start with the magic. -/
def HasHeader (bytes : Bytes) : Prop :=
  magic.length + saltLen + nonceLen + tagLen ≤ bytes.length ∧ bytes.take magic.length = magic

/-- The read of the file may fail for reasons of its own. -/
def load (file : Option Bytes) (readable : Bool) (passphrase : Except SecretsError String) :
    Except SecretsError Vault :=
  if readable then
    match file with
    | none => .error (.io true)
    | some bytes => openBytes P bytes passphrase
  else .error (.io false)

/-- A missing file reads as an empty vault. -/
def orEmpty : Except SecretsError Vault → Except SecretsError Vault
  | .error (.io true) => .ok .empty
  | loaded => loaded

def get (file : Option Bytes) (readable : Bool) (passphrase : Except SecretsError String) (name : Name) :
    Except SecretsError String :=
  match orEmpty (load P file readable passphrase) with
  | .error error => .error error
  | .ok vault =>
    match vault.find name with
    | none => .error .notFound
    | some secret => .ok secret

end File

/-- A load that finds the file missing has found no file, or the passphrase itself was missing. -/
theorem load_missing {P : Primitives} {file : Option Bytes} {readable : Bool}
    {passphrase : Except SecretsError String} (h : load P file readable passphrase = .error (.io true)) :
    file = none ∨ readable = true ∧ passphrase = .error (.io true) ∧
      ∃ bytes, file = some bytes ∧ HasHeader bytes := by
  cases readable with
  | false => cases h
  | true =>
    cases file with
    | none => exact .inl rfl
    | some bytes =>
      simp only [load, if_true, openBytes] at h
      by_cases hlen : bytes.length < magic.length + saltLen + nonceLen + tagLen
      · rw [if_pos hlen] at h
        cases h
      · by_cases hmagic : bytes.take magic.length ≠ magic
        · rw [if_neg hlen, if_pos hmagic] at h
          cases h
        · rw [if_neg hlen, if_neg hmagic] at h
          cases passphrase with
          | error error =>
            refine .inr ⟨rfl, ?_, bytes, rfl, Nat.not_lt.mp hlen, Classical.not_not.mp hmagic⟩
            injection h with h
            rw [h]
          | ok passphrase =>
            simp only at h
            split at h
            · cases h
            · split at h <;> cases h

/-- Only a missing file is mended. -/
theorem orEmpty_eq (loaded : Except SecretsError Vault) :
    (loaded = .error (.io true) ∧ orEmpty loaded = .ok .empty) ∨
      loaded ≠ .error (.io true) ∧ orEmpty loaded = loaded := by
  by_cases h : loaded = .error (.io true)
  · subst h
    exact .inl ⟨rfl, rfl⟩
  · refine .inr ⟨h, ?_⟩
    rw [orEmpty]
    exact h

/-! ## What the records answer -/

namespace Vault

@[simp] theorem find_empty (name : Name) : empty.find name = none := rfl

theorem named_eq {name name' : Name} {record : Record} (h : record.named name = true) :
    record.named name' = decide (name = name') := by
  obtain ⟨hservice, haccount⟩ := of_decide_eq_true h
  obtain ⟨service, account⟩ := name
  obtain ⟨service', account'⟩ := name'
  have hname : ((service, account) = (service', account')) ↔
      (record.service = service' ∧ record.account = account') := by
    rw [Prod.mk.injEq, hservice, haccount]
  exact decide_eq_decide.mpr hname.symm

theorem find_cons (record : Record) (records : List Record) (name : Name) :
    find ⟨record :: records⟩ name =
      if record.named name then some record.secret else find ⟨records⟩ name := by
  rw [find, List.find?_cons]
  cases record.named name <;> rfl

theorem find_setIn (name name' : Name) (secret : String) (records : List Record) :
    find ⟨setIn name secret records⟩ name' = if name = name' then some secret else find ⟨records⟩ name' := by
  induction records with
  | nil =>
    have hself : Record.named name ⟨name.1, name.2, secret⟩ = true := by simp [Record.named]
    rw [setIn, find_cons, named_eq hself]
    by_cases heq : name = name' <;> simp [heq]
  | cons record records ih =>
    rw [setIn]
    by_cases hnamed : record.named name = true
    · have hself : Record.named name ⟨record.service, record.account, secret⟩ = true := hnamed
      rw [if_pos hnamed, find_cons, named_eq hself, find_cons, named_eq hnamed]
      by_cases heq : name = name' <;> simp [heq]
    · rw [if_neg hnamed, find_cons, find_cons, ih]
      by_cases heq : name = name'
      · subst heq
        rw [if_neg hnamed, if_pos rfl, if_pos rfl]
      · rw [if_neg heq, if_neg heq]

theorem find_set (vault : Vault) (name name' : Name) (secret : String) :
    (vault.set name secret).find name' = if name = name' then some secret else vault.find name' :=
  find_setIn name name' secret vault.records

theorem find_remove (vault : Vault) (name name' : Name) :
    (vault.remove name).find name' = if name = name' then none else vault.find name' := by
  obtain ⟨records⟩ := vault
  induction records with
  | nil => exact (ite_self none).symm
  | cons record records ih =>
    rw [remove] at ih ⊢
    cases hnamed : record.named name with
    | true =>
      have hdrop : ¬(!record.named name) = true := by rw [hnamed]; decide
      rw [List.filter_cons, if_neg hdrop, ih, find_cons, named_eq hnamed]
      by_cases heq : name = name' <;> simp [heq]
    | false =>
      have hkeep : (!record.named name) = true := by rw [hnamed]; rfl
      rw [List.filter_cons, if_pos hkeep, find_cons, find_cons, ih]
      by_cases heq : name = name'
      · subst heq
        rw [hnamed, if_neg Bool.false_ne_true, if_pos rfl, if_pos rfl]
      · rw [if_neg heq, if_neg heq]

/-- Removing a name shortens the list exactly if it was there. -/
theorem remove_length (vault : Vault) (name : Name) :
    (vault.remove name).records.length = vault.records.length ↔ vault.find name = none := by
  rw [remove, List.length_filter_eq_length_iff, find, Option.map_eq_none_iff, List.find?_eq_none]
  constructor
  · intro h record hrecord hnamed
    have := h record hrecord
    rw [hnamed] at this
    exact absurd this (by decide)
  · intro h record hrecord
    rw [Bool.eq_false_iff.mpr (h record hrecord)]
    rfl

end Vault

/-! ## What a sealed file opens to -/

section Sealed

variable {P : Primitives}

theorem saveBytes_eq_ok {passphrase : String} {salt : Salt} {nonce : Nonce} {vault : Vault} {bytes : Bytes}
    (h : saveBytes P passphrase salt nonce vault = .ok bytes) :
    ∃ payload cipher, P.toVec vault = some payload ∧
      P.encrypt (P.deriveKey passphrase salt.1) nonce.1 magic payload = some cipher ∧
      bytes = magic ++ salt.1 ++ nonce.1 ++ cipher := by
  rw [saveBytes] at h
  cases hpayload : P.toVec vault with
  | none => simp [hpayload] at h
  | some payload =>
    cases hcipher : P.encrypt (P.deriveKey passphrase salt.1) nonce.1 magic payload with
    | none => simp [hpayload, hcipher] at h
    | some cipher =>
      simp only [hpayload, hcipher, Except.ok.injEq] at h
      exact ⟨payload, cipher, rfl, hcipher, h.symm⟩

/-- The header of a sealed file is taken apart as it was put together. -/
theorem openBytes_header {passphrase' : String} {salt : Salt} {nonce : Nonce} {cipher : Bytes}
    (htag : tagLen ≤ cipher.length) :
    openBytes P (magic ++ salt.1 ++ nonce.1 ++ cipher) (.ok passphrase') =
      match P.decrypt (P.deriveKey passphrase' salt.1) nonce.1 magic cipher with
      | none => .error .crypto
      | some payload =>
        match P.fromSlice payload with
        | none => .error .crypto
        | some vault => .ok vault := by
  obtain ⟨salt, hsalt⟩ := salt
  obtain ⟨nonce, hnonce⟩ := nonce
  have hlen : ¬(magic ++ salt ++ nonce ++ cipher).length < magic.length + saltLen + nonceLen + tagLen := by
    rw [List.length_append, List.length_append, List.length_append, hsalt, hnonce]
    omega
  have hmagic : (magic ++ salt ++ nonce ++ cipher).take magic.length = magic := by
    rw [List.append_assoc, List.append_assoc, List.take_left]
  have hbody : (magic ++ salt ++ nonce ++ cipher).drop magic.length = salt ++ (nonce ++ cipher) := by
    rw [List.append_assoc, List.append_assoc, List.drop_left]
  have htake : (salt ++ (nonce ++ cipher)).take saltLen = salt := by rw [← hsalt, List.take_left]
  have hdrop : (salt ++ (nonce ++ cipher)).drop saltLen = nonce ++ cipher := by rw [← hsalt, List.drop_left]
  have htake' : (nonce ++ cipher).take nonceLen = nonce := by rw [← hnonce, List.take_left]
  have hdrop' : (nonce ++ cipher).drop nonceLen = cipher := by rw [← hnonce, List.drop_left]
  rw [openBytes, if_neg hlen, if_neg (not_not.mpr hmagic), hbody]
  simp only [htake, hdrop, htake', hdrop']

theorem openBytes_saveBytes (ideal : Ideal P) {passphrase : String} {salt : Salt} {nonce : Nonce} {vault : Vault}
    {bytes : Bytes} (h : saveBytes P passphrase salt nonce vault = .ok bytes) :
    openBytes P bytes (.ok passphrase) = .ok vault := by
  obtain ⟨payload, cipher, hpayload, hcipher, rfl⟩ := saveBytes_eq_ok h
  rw [openBytes_header (ideal.tagged hcipher), ideal.opens hcipher]
  simp only [ideal.reads hpayload]

/-- Whatever passphrase opens a sealed file, it opens to the vault that was sealed. -/
theorem openBytes_sealed (ideal : Ideal P) {passphrase : String} {salt : Salt} {nonce : Nonce}
    {vault vault' : Vault} {bytes : Bytes} (h : saveBytes P passphrase salt nonce vault = .ok bytes)
    {passphrase' : Except SecretsError String} (hopen : openBytes P bytes passphrase' = .ok vault') :
    vault' = vault := by
  obtain ⟨payload, cipher, hpayload, hcipher, rfl⟩ := saveBytes_eq_ok h
  cases passphrase' with
  | error error =>
    rw [openBytes] at hopen
    split at hopen
    · cases hopen
    · split at hopen <;> cases hopen
  | ok passphrase' =>
    rw [openBytes_header (ideal.tagged hcipher)] at hopen
    cases hplain : P.decrypt (P.deriveKey passphrase' salt.1) nonce.1 magic cipher with
    | none => simp [hplain] at hopen
    | some plain =>
      rw [hplain, ideal.binds hcipher hplain] at hopen
      simp only [ideal.reads hpayload, Except.ok.injEq] at hopen
      exact hopen.symm

end Sealed

end SupraHarness.Secrets
