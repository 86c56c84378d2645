import SupraHarness.Ffi.LinuxSpawn
import SupraHarness.Lib.Appending
import SupraHarness.Lib.Lisp
import SupraHarness.Lib.Results

/-!
# The profile of the macOS spawn

The profile is a text of parenthesised rules, written piece by piece into a fixed buffer that refuses a piece it has no
room for. A path is written byte by byte into a string of the profile, so that whatever its bytes are, the profile is
read as the rules of the policy with the path as one string in them.
-/
namespace SupraHarness.Ffi.Mac

open Linux (Text ascii setError setErrorErrno PathRule Policy netPorts netFull knownAccess)
open Lisp (Expr Token Lexer Lexes Writes Spells octalEscape)
open Appending

def kProfileCapacity : Nat := 131072

/-- The tokens of the texts around the paths. -/
theorem lexes_texts :
    Lexes .between (ascii "(literal \"") (.string []) [.opening, .word (ascii "literal")] ∧
    Lexes .between (ascii "(subpath \"") (.string []) [.opening, .word (ascii "subpath")] ∧
    ascii "\")" = [0x22, 0x29] ∧ Lexes .between (ascii " ") .between [] ∧
    Lexes .between (ascii ")\n") .between [.closing] ∧
    Lexes .between (ascii "(allow file-read* ") .between [.opening, .word (ascii "allow"), .word (ascii "file-read*")] ∧
    Lexes .between (ascii "(allow file-write* ") .between
      [.opening, .word (ascii "allow"), .word (ascii "file-write*")] ∧
    Lexes .between (ascii "(allow process-exec ") .between
      [.opening, .word (ascii "allow"), .word (ascii "process-exec")] := by
  decide +kernel

/-- The bytes written, with room for the terminator behind them. -/
structure ProfileBuffer where
  bytes : Text
  room : bytes.length < kProfileCapacity

def ProfileBuffer.new : ProfileBuffer := ⟨[], by decide⟩

def append (text : Text) (profile : ProfileBuffer) : Option ProfileBuffer :=
  if h : kProfileCapacity - profile.bytes.length ≤ text.length then none
  else some ⟨profile.bytes ++ text, by rw [List.length_append]; omega⟩

/-- One byte of `appendLiteral`. -/
def escapeLiteral (c : UInt8) : Text :=
  if c = 0x5C then [0x5C, 0x5C]
  else if c = 0x22 then [0x5C, 0x22]
  else if c = 0x0A then [0x5C, 0x6E]
  else if c = 0x0D then [0x5C, 0x72]
  else if c = 0x09 then [0x5C, 0x74]
  else if c < 0x20 ∨ c = 0x7F then octalEscape c
  else [c]

/-- One byte of `appendSubpath`. -/
def escapeSubpath (c : UInt8) : Text :=
  if c = 0x5C then [0x5C, 0x5C]
  else if c = 0x22 then [0x5C, 0x22]
  else if c < 0x20 ∨ c = 0x7F then octalEscape c
  else [c]

/-- A filter with a path as a string in it. -/
def appendString (opening : String) (escape : UInt8 → Text) (path : Option Text) (profile : ProfileBuffer) :
    Option ProfileBuffer := do
  let profile ← append (ascii opening) profile
  let path ← path
  let profile ← writeAll (fun c => append (escape c)) path profile
  append (ascii "\")") profile

def appendLiteral (path : Option Text) (profile : ProfileBuffer) : Option ProfileBuffer :=
  appendString "(literal \"" escapeLiteral path profile

def appendSubpath (path : Option Text) (profile : ProfileBuffer) : Option ProfileBuffer :=
  appendString "(subpath \"" escapeSubpath path profile

def appendPathFilter (path : Option Text) (directory : Bool) (profile : ProfileBuffer) : Option ProfileBuffer := do
  let profile ← appendLiteral path profile
  if directory then (append (ascii " ") profile).bind (appendSubpath path) else some profile

/-- A rule that allows an operation on a path. -/
def appendAllow (opening : String) (path : Option Text) (directory : Bool) (profile : ProfileBuffer) :
    Option ProfileBuffer := do
  let profile ← append (ascii opening) profile
  let profile ← appendPathFilter path directory profile
  append (ascii ")\n") profile

def orExceeds : Option ProfileBuffer → Except Text ProfileBuffer
  | some profile => .ok profile
  | none => .error (setError (ascii "generated SBPL profile exceeds capacity"))

def read : UInt32 := 1
def write : UInt32 := 2
def execute : UInt32 := 4
def manage : UInt32 := 8

/-- One of the rules that `appendRule` writes if the access asks for it. -/
def appendIf (asked : Bool) (opening : String) (path : Option Text) (directory : Bool) (profile : ProfileBuffer) :
    Except Text ProfileBuffer :=
  if asked then orExceeds (appendAllow opening path directory profile) else .ok profile

/-- `stat` tells whether a path is a directory, or its `errno`. -/
def appendRule (strerror : Int → Text) (stat : Option Text → Except Int Bool) (rule : PathRule)
    (profile : ProfileBuffer) : Except Text ProfileBuffer :=
  if rule.access &&& ~~~knownAccess ≠ 0 then .error (setError (ascii "path rule contains unknown access bits"))
  else
    match stat rule.path with
    | .error errno => .error (setErrorErrno strerror (rule.path.getD (ascii "error")) errno)
    | .ok directory => do
      let profile ← appendIf (rule.access &&& (read ||| execute) ≠ 0) "(allow file-read* " rule.path directory profile
      let profile ← appendIf (rule.access &&& (write ||| manage) ≠ 0) "(allow file-write* " rule.path directory profile
      appendIf (rule.access &&& execute ≠ 0) "(allow process-exec " rule.path directory profile

def appendRules (strerror : Int → Text) (stat : Option Text → Except Int Bool) :
    List PathRule → ProfileBuffer → Except Text ProfileBuffer
  | [], profile => .ok profile
  | rule :: rules, profile => do
    let profile ← appendRule strerror stat rule profile
    appendRules strerror stat rules profile

def appendNetwork (network : UInt8) (profile : ProfileBuffer) : Except Text ProfileBuffer :=
  if network = netFull then orExceeds (append (ascii "(allow network*)\n") profile) else .ok profile

def preamble : String := "(version 1)\n(deny default)\n(allow process-fork)\n(allow sysctl-read)\n"

def buildProfile (strerror : Int → Text) (stat : Option Text → Except Int Bool) (policy : Policy) :
    Except Text ProfileBuffer :=
  if netFull < policy.network then .error (setError (ascii "unknown network policy"))
  else if policy.network = netPorts then
    .error (setError (ascii "macOS SBPL backend cannot enforce per-port network policy"))
  else if policy.isolateProcesses ≠ 0 ∨ policy.isolateIpc ≠ 0 then
    .error (setError (ascii "macOS SBPL backend cannot enforce process or IPC namespace isolation"))
  else do
    let profile ← orExceeds (append (ascii preamble) .new)
    let profile ← appendNetwork policy.network profile
    appendRules strerror stat policy.paths profile

/-! ## What the profile says -/

def word (name : String) : Expr := .word (ascii name)

/-- The filters of a path: itself, and for a directory all that is below it. -/
def filters (path : Text) (directory : Bool) : List Expr :=
  .list [word "literal", .string path] :: if directory then [.list [word "subpath", .string path]] else []

def allow (operation : String) (path : Text) (directory : Bool) : Expr :=
  .list (word "allow" :: word operation :: filters path directory)

/-- What a rule of the policy allows. -/
def ruleForms (access : UInt32) (path : Text) (directory : Bool) : List Expr :=
  (if access &&& (read ||| execute) ≠ 0 then [allow "file-read*" path directory] else []) ++
  (if access &&& (write ||| manage) ≠ 0 then [allow "file-write*" path directory] else []) ++
  (if access &&& execute ≠ 0 then [allow "process-exec" path directory] else [])

def isDirectory (stat : Option Text → Except Int Bool) (rule : PathRule) : Bool :=
  match stat rule.path with
  | .ok directory => directory
  | .error _ => false

def preambleForms : List Expr :=
  [.list [word "version", word "1"], .list [word "deny", word "default"], .list [word "allow", word "process-fork"],
    .list [word "allow", word "sysctl-read"]]

/-- The rules that a policy asks for. -/
def forms (stat : Option Text → Except Int Bool) (policy : Policy) : List Expr :=
  preambleForms ++ (if policy.network = netFull then [.list [word "allow", word "network*"]] else []) ++
  policy.paths.flatMap fun rule => ruleForms rule.access (rule.path.getD []) (isDirectory stat rule)

/-! ## What is written -/

theorem appends_append (text : Text) : Appends ProfileBuffer.bytes kProfileCapacity (append text) text where
  added h := by
    unfold append at h
    split at h
    · cases h
    · rw [← Option.some.inj h]
  succeeds {b} fits := by
    have room : ¬ kProfileCapacity - b.bytes.length ≤ text.length := by omega
    exact ⟨_, dif_neg room⟩

def stringText (opening : String) (escape : UInt8 → Text) (path : Text) : Text :=
  ascii opening ++ (path.flatMap escape ++ ascii "\")")

def filterText (path : Text) (directory : Bool) : Text :=
  stringText "(literal \"" escapeLiteral path ++
    if directory then ascii " " ++ stringText "(subpath \"" escapeSubpath path else []

def allowText (opening : String) (path : Text) (directory : Bool) : Text :=
  ascii opening ++ (filterText path directory ++ ascii ")\n")

theorem appends_string (opening : String) (escape : UInt8 → Text) (path : Text) :
    Appends ProfileBuffer.bytes kProfileCapacity (appendString opening escape (some path))
      (stringText opening escape path) :=
  (appends_append _).bind ((Appends.writeAll fun c _ => appends_append (escape c)).bind (appends_append _))

theorem appends_filter (path : Text) (directory : Bool) :
    Appends ProfileBuffer.bytes kProfileCapacity (appendPathFilter (some path) directory) (filterText path directory) :=
  (appends_string _ _ path).bind
    (.ite (fun _ => (appends_append _).bind (appends_string _ _ path)) fun _ => .done)

theorem appends_allow (opening : String) (path : Text) (directory : Bool) :
    Appends ProfileBuffer.bytes kProfileCapacity (appendAllow opening (some path) directory)
      (allowText opening path directory) :=
  (appends_append _).bind ((appends_filter path directory).bind (appends_append _))

/-- A rule without a path is refused. -/
theorem appendAllow_none (opening : String) (directory : Bool) (profile : ProfileBuffer) :
    appendAllow opening none directory profile = none := by
  have filter (profile : ProfileBuffer) : appendPathFilter none directory profile = none := by
    rw [appendPathFilter, appendLiteral, appendString]
    cases append (ascii "(literal \"") profile <;> rfl
  rw [appendAllow]
  cases append (ascii opening) profile with
  | none => rfl
  | some profile => exact congrArg (Option.bind · _) (filter profile)

/-! ## How it is read -/

theorem spells_literal (c : UInt8) : Spells (escapeLiteral c) c := by
  unfold escapeLiteral
  split_ifs with slash quote feed ret tab control
  · subst slash
    exact Lisp.spells_escape (by decide)
  · subst quote
    exact Lisp.spells_escape (by decide)
  · subst feed
    exact Lisp.spells_escape (by decide)
  · subst ret
    exact Lisp.spells_escape (by decide)
  · subst tab
    exact Lisp.spells_escape (by decide)
  · exact Lisp.spells_octal c
  · exact Lisp.spells_self quote slash

theorem spells_subpath (c : UInt8) : Spells (escapeSubpath c) c := by
  unfold escapeSubpath
  split_ifs with slash quote control
  · subst slash
    exact Lisp.spells_escape (by decide)
  · subst quote
    exact Lisp.spells_escape (by decide)
  · exact Lisp.spells_octal c
  · exact Lisp.spells_self quote slash

/-- The texts without a path. -/
theorem writes_texts :
    Writes (ascii preamble) preambleForms ∧
    Writes (ascii "(allow network*)\n") [.list [word "allow", word "network*"]] := by
  unfold Writes
  decide +kernel

/-- A path in its filter is read as one string, whatever its bytes are. -/
theorem writes_string {opening : String} {name : Text} {escape : UInt8 → Text} (spells : ∀ c, Spells (escape c) c)
    (h : Lexes .between (ascii opening) (.string []) [.opening, .word name]) (path : Text) :
    Writes (stringText opening escape path) [.list [.word name, .string path]] := by
  have close : Lexes (.string path) (ascii "\")") .between [.string path, .closing] := by
    obtain ⟨-, -, ended, -⟩ := lexes_texts
    rw [ended]
    rfl
  have spelled := Lisp.lexes_spelled spells path []
  rw [List.nil_append] at spelled
  exact h.append (spelled.append close)

theorem writes_filter (path : Text) (directory : Bool) : Writes (filterText path directory) (filters path directory) := by
  obtain ⟨literally, below, -, blank, -⟩ := lexes_texts
  have literal : Writes (stringText "(literal \"" escapeLiteral path) [.list [word "literal", .string path]] :=
    writes_string spells_literal literally path
  have subpath : Writes (stringText "(subpath \"" escapeSubpath path) [.list [word "subpath", .string path]] :=
    writes_string spells_subpath below path
  cases directory with
  | false => exact literal.append .nil
  | true =>
    have gap : Writes (ascii " ") [] := blank
    exact literal.append (gap.append subpath)

theorem writes_allow {opening operation : String}
    (h : Lexes .between (ascii opening) .between [.opening, .word (ascii "allow"), .word (ascii operation)])
    (path : Text) (directory : Bool) :
    Writes (allowText opening path directory) [allow operation path directory] := by
  obtain ⟨-, -, -, -, close, -⟩ := lexes_texts
  have tokens : Lisp.tokensAll [allow operation path directory] =
      [.opening, .word (ascii "allow"), .word (ascii operation)] ++
        (Lisp.tokensAll (filters path directory) ++ [.closing]) := by
    simp [allow, word, Lisp.tokensAll, Expr.tokens]
  rw [Writes, tokens]
  exact Lexes.append h (Lexes.append (writes_filter path directory) close)

/-! ## The whole profile -/

/-- The rules that a profile has more than another, as they are read. -/
def Says (profile profile' : ProfileBuffer) (items : List Expr) : Prop :=
  ∃ text, profile'.bytes = profile.bytes ++ text ∧ Writes text items

theorem Says.nothing (profile : ProfileBuffer) : Says profile profile [] := ⟨[], (List.append_nil _).symm, .nil⟩

theorem Says.trans {first second third : ProfileBuffer} {items items' : List Expr} (h : Says first second items)
    (h' : Says second third items') : Says first third (items ++ items') := by
  obtain ⟨text, bytes, writes⟩ := h
  obtain ⟨text', bytes', writes'⟩ := h'
  exact ⟨text ++ text', by rw [bytes', bytes, List.append_assoc], writes.append writes'⟩

theorem orExceeds_ok {written : Option ProfileBuffer} {profile : ProfileBuffer} (h : orExceeds written = .ok profile) :
    written = some profile := by
  cases written with
  | none => cases h
  | some written => exact congrArg some (Except.ok.inj h)

theorem says_append {text : String} {items : List Expr} (writes : Writes (ascii text) items)
    {profile profile' : ProfileBuffer} (h : orExceeds (append (ascii text) profile) = .ok profile') :
    Says profile profile' items :=
  ⟨_, (appends_append _).added (orExceeds_ok h), writes⟩

/-- A rule of the profile is written where the policy asks for it. -/
theorem says_allow {asked : Bool} {opening : String} (operation : String)
    (lexes : Lexes .between (ascii opening) .between [.opening, .word (ascii "allow"), .word (ascii operation)])
    {path : Option Text} {directory : Bool} {profile profile' : ProfileBuffer}
    (h : appendIf asked opening path directory profile = .ok profile') :
    Says profile profile' (if asked then [allow operation (path.getD []) directory] else []) := by
  rw [appendIf] at h
  by_cases hasked : asked = true
  · rw [if_pos hasked] at h ⊢
    have written := orExceeds_ok h
    cases path with
    | none =>
      rw [appendAllow_none] at written
      cases written
    | some path => exact ⟨_, (appends_allow opening path directory).added written, writes_allow lexes path directory⟩
  · rw [if_neg hasked] at h ⊢
    obtain rfl := Except.ok.inj h
    exact .nothing profile

variable {strerror : Int → Text} {stat : Option Text → Except Int Bool}

theorem says_rule {rule : PathRule} {profile profile' : ProfileBuffer}
    (h : appendRule strerror stat rule profile = .ok profile') :
    Says profile profile' (ruleForms rule.access (rule.path.getD []) (isDirectory stat rule)) := by
  rw [appendRule] at h
  split at h
  · cases h
  cases status : stat rule.path with
  | error errno =>
    rw [status] at h
    cases h
  | ok directory =>
    rw [status] at h
    obtain ⟨reading, hread, h⟩ := Results.bind_eq_ok.1 h
    obtain ⟨writing, hwrite, hexecute⟩ := Results.bind_eq_ok.1 h
    have known : isDirectory stat rule = directory := by rw [isDirectory, status]
    obtain ⟨-, -, -, -, -, reads, writes, executes⟩ := lexes_texts
    have said := ((says_allow "file-read*" reads hread).trans (says_allow "file-write*" writes hwrite)).trans
      (says_allow "process-exec" executes hexecute)
    simp only [decide_eq_true_eq] at said
    rwa [known]

theorem says_rules {rules : List PathRule} {profile profile' : ProfileBuffer}
    (h : appendRules strerror stat rules profile = .ok profile') :
    Says profile profile'
      (rules.flatMap fun rule => ruleForms rule.access (rule.path.getD []) (isDirectory stat rule)) := by
  induction rules generalizing profile with
  | nil =>
    obtain rfl := Except.ok.inj h
    exact .nothing profile
  | cons rule rules ih =>
    obtain ⟨next, hrule, h⟩ := Results.bind_eq_ok.1 h
    exact (says_rule hrule).trans (ih h)

theorem says_preamble {profile profile' : ProfileBuffer}
    (h : orExceeds (append (ascii preamble) profile) = .ok profile') : Says profile profile' preambleForms :=
  says_append writes_texts.1 h

theorem says_network {network : UInt8} {profile profile' : ProfileBuffer}
    (h : appendNetwork network profile = .ok profile') :
    Says profile profile' (if network = netFull then [.list [word "allow", word "network*"]] else []) := by
  rw [appendNetwork] at h
  by_cases full : network = netFull
  · rw [if_pos full] at h ⊢
    exact says_append writes_texts.2 h
  · rw [if_neg full] at h ⊢
    obtain rfl := Except.ok.inj h
    exact .nothing profile

/-- A profile that is built is below the capacity of its buffer, and is read as the rules of the policy with each path as
one string. -/
theorem profile_is_policy (strerror : Int → Text) (stat : Option Text → Except Int Bool) (policy : Policy) :
    (∃ error, buildProfile strerror stat policy = .error error) ∨
      ∃ profile, buildProfile strerror stat policy = .ok profile ∧ profile.bytes.length < kProfileCapacity ∧
        Lisp.parse profile.bytes = some (forms stat policy) := by
  cases built : buildProfile strerror stat policy with
  | error error => exact .inl ⟨error, rfl⟩
  | ok profile =>
    refine .inr ⟨profile, rfl, profile.room, ?_⟩
    unfold buildProfile at built
    split_ifs at built
    obtain ⟨started, hstart, built⟩ := Results.bind_eq_ok.1 built
    obtain ⟨networked, hnetwork, hrules⟩ := Results.bind_eq_ok.1 built
    obtain ⟨text, bytes, writes⟩ := ((says_preamble hstart).trans (says_network hnetwork)).trans (says_rules hrules)
    rw [ProfileBuffer.new, List.nil_append] at bytes
    rw [bytes]
    exact writes.parse

end SupraHarness.Ffi.Mac
