import Mathlib.Data.List.Basic
import Mathlib.Data.List.TakeWhile
import SupraHarness.Config.Layer
import SupraHarness.Lib.Scan

/-!
# IP addresses as text

The standard library's reading of an address: four decimal numbers with dots, or groups of four hexadecimal
digits with colons, of which one run of zeros may be left out and the last two may be written as the
other kind. Every reader returns what it has not read.
-/
namespace SupraHarness.IpAddr

abbrev Text := List Char

inductive Addr where
  | v4 (one two three four : Nat)
  | v6 (segments : List Nat)
  deriving DecidableEq, Repr

/-- `char::to_digit`. -/
def toDigit (radix : Nat) (c : Char) : Option Nat :=
  let digit :=
    if c.isDigit then c.toNat - '0'.toNat
    else if 'a' ≤ c ∧ c ≤ 'z' then c.toNat - 'a'.toNat + 10
    else if 'A' ≤ c ∧ c ≤ 'Z' then c.toNat - 'A'.toNat + 10
    else radix
  if digit < radix then some digit else none

/-- A number of so many digits at most; whether it may start with a zero; what its type holds. -/
def readNumber (radix maxDigits : Nat) (allowZeroPrefix : Bool) (limit : Nat) (text : Text) :
    Option (Nat × Text) :=
  let digits := text.takeWhile fun c => (toDigit radix c).isSome
  if digits = [] ∨ maxDigits < digits.length then none
  else if !allowZeroPrefix && digits.head? = some '0' && 1 < digits.length then none
  else
    let value := digits.foldl (fun value c => value * radix + (toDigit radix c).getD 0) 0
    if value < limit then some (value, text.drop digits.length) else none

/-- All but the first of several parts have a separator in front. -/
def readSeparator {α : Type} (sep : Char) (index : Nat) (inner : Text → Option (α × Text)) (text : Text) :
    Option (α × Text) :=
  if index = 0 then inner text
  else
    match text with
    | [] => none
    | c :: text => if c = sep then inner text else none

def readOctet (index : Nat) (text : Text) : Option (Nat × Text) :=
  readSeparator '.' index (readNumber 10 3 false 256) text

def readIpv4 (text : Text) : Option ((Nat × Nat × Nat × Nat) × Text) := do
  let (one, text) ← readOctet 0 text
  let (two, text) ← readOctet 1 text
  let (three, text) ← readOctet 2 text
  let (four, text) ← readOctet 3 text
  some ((one, two, three, four), text)

/-- Groups for some slots, the first of them with an index; and whether they end in a dotted address. -/
def readGroups : Nat → Nat → Text → List Nat × Bool × Text
  | 0, _, text => ([], false, text)
  | slots + 1, index, text =>
    match if slots = 0 then none else readSeparator ':' index readIpv4 text with
    | some ((one, two, three, four), rest) => ([one * 256 + two, three * 256 + four], true, rest)
    | none =>
      match readSeparator ':' index (readNumber 16 4 true 65536) text with
      | none => ([], false, text)
      | some (group, rest) =>
        let (groups, dotted, rest) := readGroups slots (index + 1) rest
        (group :: groups, dotted, rest)

def readIpv6 (text : Text) : Option (List Nat × Text) :=
  let (head, dotted, rest) := readGroups 8 0 text
  if head.length = 8 then some (head, rest)
  else if dotted then none
  else
    match rest with
    | ':' :: ':' :: rest =>
      let (tail, _, rest) := readGroups (8 - (head.length + 1)) 0 rest
      some (head ++ List.replicate (8 - head.length - tail.length) 0 ++ tail, rest)
    | _ => none

/-- `str::parse::<IpAddr>`: an address, and nothing after it. -/
def parse (text : Text) : Option Addr :=
  match readIpv4 text with
  | some ((one, two, three, four), rest) => if rest = [] then some (.v4 one two three four) else none
  | none =>
    match readIpv6 text with
    | some (segments, rest) => if rest = [] then some (.v6 segments) else none
    | none => none

/-- `IpAddr::is_loopback`. -/
def Addr.isLoopback : Addr → Bool
  | .v4 one _ _ _ => one = 127
  | .v6 segments => segments = [0, 0, 0, 0, 0, 0, 0, 1]

example : (parse "127.0.0.1".toList).map Addr.isLoopback = some true := by decide

example : (parse "::0.0.0.1".toList).map Addr.isLoopback = some true := by decide

example : parse "127.0.0.01".toList = none := by decide

end SupraHarness.IpAddr

/-!
## Endpoints

Where a provider is reached: over `https` anywhere, over plain `http` on loopback only. The authority is
cut out of the text by hand. Behind a bracketed host only a port may stand; what stands behind a plain
host, and the whole authority under `https`, is not looked at.
-/
namespace SupraHarness.Configuration

abbrev Text := List Char

/-- A setting was structurally wrong in a way a range cannot express. -/
structure Rejected where
  layer : ConfigSource
  setting : Text
  value : Text
  because : String
  deriving DecidableEq, Repr

/-- The authority ends at the first path, query, or fragment delimiter. -/
def authority (rest : Text) : Text := rest.takeWhile fun c => !(c = '/' || c = '?' || c = '#')

/-- What may follow a closing bracket: nothing, or a colon and digits. -/
def portIsWellFormed (afterClose : Text) : Bool :=
  match Str.stripPrefix [':'] afterClose with
  | some port => !port.isEmpty && port.all Char.isDigit
  | none => afterClose.isEmpty

/-- The host part of an authority, with a bracketed literal unwrapped; empty if it is malformed. -/
def authorityHost (rest : Text) : Text :=
  if '@' ∈ authority rest then []
  else
    match Str.stripPrefix ['['] (authority rest) with
    | some afterBracket =>
      match afterBracket.findIdx? (· = ']') with
      | none => []
      | some close =>
        if portIsWellFormed (afterBracket.drop (close + 1)) then afterBracket.take close else []
    | none => (authority rest).takeWhile (· ≠ ':')

/-- `localhost` by name, and anything the standard library considers loopback. -/
def isLoopbackAuthority (host : Text) : Bool :=
  host.map Char.toLower = "localhost".toList || (IpAddr.parse host).any IpAddr.Addr.isLoopback

section Check
variable (layer : ConfigSource) (setting value : Text)

/-- Refuse a plaintext endpoint outside loopback. -/
def checkEndpoint : Except Rejected Unit :=
  match Str.stripPrefix "https://".toList value with
  | some rest => if rest = [] then .error ⟨layer, setting, value, "an endpoint needs a host"⟩ else .ok ()
  | none =>
    match Str.stripPrefix "http://".toList value with
    | some rest =>
      if isLoopbackAuthority (authorityHost rest) then .ok ()
      else
        .error ⟨layer, setting, value,
          "plaintext http would send prompts and credentials in clear; use https, or a loopback host for a local proxy"⟩
    | none =>
      .error ⟨layer, setting, value, "an endpoint must start with https:// (or http:// on loopback)"⟩

end Check

/-! ### What an endpoint is -/

/-- Nothing, or a colon and one digit or more. -/
def Port (text : Text) : Prop := text = [] ∨ ∃ port, text = ':' :: port ∧ port ≠ [] ∧ ∀ c ∈ port, c.isDigit

/-- A host that is not empty, plain or in brackets, and a port. -/
inductive HostPort (host : Text) : Text → Prop where
  | plain {port : Text} (nonempty : host ≠ []) (unbracketed : host.head? ≠ some '[') (colonless : ':' ∉ host)
      (wellFormed : Port port) : HostPort host (host ++ port)
  | bracketed {port : Text} (nonempty : host ≠ []) (closed : ']' ∉ host) (wellFormed : Port port) :
      HostPort host ('[' :: (host ++ ']' :: port))

/-- What is behind the user information of an authority. -/
def hostPort (authority : Text) : Text := (authority.reverse.takeWhile (· ≠ '@')).reverse

/-- An endpoint that may be used: over `https`, or over `http` on loopback and without user information. -/
def Endpoint (value : Text) : Prop :=
  (∃ rest, value = "https://".toList ++ rest ∧ ∃ host, HostPort host (hostPort (authority rest))) ∨
    ∃ rest, value = "http://".toList ++ rest ∧ '@' ∉ authority rest ∧
      ∃ host, HostPort host (authority rest) ∧ isLoopbackAuthority host = true

theorem portIsWellFormed_iff {text : Text} : portIsWellFormed text = true ↔ Port text := by
  rw [portIsWellFormed]
  cases stripped : Str.stripPrefix [':'] text with
  | some port =>
    rw [Scan.stripPrefix_eq_some] at stripped
    subst stripped
    simp [Port]
  | none =>
    rw [List.isEmpty_iff]
    constructor
    · exact .inl
    · rintro (rfl | ⟨port, rfl, -, -⟩)
      · rfl
      · simp [Str.stripPrefix] at stripped

theorem isLoopbackAuthority_nil : isLoopbackAuthority [] = false := by decide

theorem Port.dropWhile {host port : Text} (colonless : ':' ∉ host) (wellFormed : Port port) :
    (host ++ port).takeWhile (· ≠ ':') = host ∧ (host ++ port).dropWhile (· ≠ ':') = port := by
  have all : ∀ c ∈ host, decide (c ≠ ':') = true := by
    intro c mem
    exact decide_eq_true fun colon => colonless (colon ▸ mem)
  rw [List.takeWhile_append_of_pos all, List.dropWhile_append_of_pos all]
  rcases wellFormed with rfl | ⟨port, rfl, -, -⟩ <;> simp

/-- A bracketed host is returned where a port follows it, or nothing does. -/
theorem hostPort_of_bracket {rest after : Text} (bracket : authority rest = '[' :: after)
    (loopback : isLoopbackAuthority (authorityHost rest) = true) :
    '@' ∉ authority rest ∧ HostPort (authorityHost rest) (authority rest) := by
  rw [authorityHost] at loopback ⊢
  split_ifs at loopback ⊢ with user
  · rw [isLoopbackAuthority_nil] at loopback
    cases loopback
  · refine ⟨user, ?_⟩
    have stripped : Str.stripPrefix ['['] (authority rest) = some after :=
      Scan.stripPrefix_eq_some.2 bracket
    rw [stripped] at loopback ⊢
    dsimp only at loopback ⊢
    cases found : after.findIdx? (· = ']') with
    | none =>
      rw [found] at loopback
      simp [isLoopbackAuthority_nil] at loopback
    | some close =>
      rw [found] at loopback
      dsimp only at loopback ⊢
      split_ifs at loopback ⊢ with port
      · obtain ⟨inside, isClose, before⟩ := List.findIdx?_eq_some_iff_getElem.1 found
        have split : authority rest = '[' :: (after.take close ++ ']' :: after.drop (close + 1)) := by
          rw [bracket, ← of_decide_eq_true isClose, List.getElem_cons_drop, List.take_append_drop]
        rw [split]
        refine .bracketed ?_ ?_ (portIsWellFormed_iff.1 port)
        · intro empty
          rw [empty, isLoopbackAuthority_nil] at loopback
          cases loopback
        · intro mem
          obtain ⟨index, less, equal⟩ := List.mem_take_iff_getElem.1 mem
          have other := before index (by omega)
          simp [equal] at other
      · rw [isLoopbackAuthority_nil] at loopback
        cases loopback

theorem authorityHost_of_plain {rest : Text} (plain : (authority rest).head? ≠ some '[')
    (user : '@' ∉ authority rest) : authorityHost rest = (authority rest).takeWhile (· ≠ ':') := by
  rw [authorityHost, if_neg user]
  cases stripped : Str.stripPrefix ['['] (authority rest) with
  | none => rfl
  | some after =>
    rw [Scan.stripPrefix_eq_some] at stripped
    rw [stripped] at plain
    exact absurd rfl plain

theorem https_ne_http (rest rest' : Text) : "https://".toList ++ rest ≠ "http://".toList ++ rest' := by
  intro same
  exact absurd (congrArg (fun text => text[4]?) same) (by simp)

theorem checkEndpoint_eq_ok {layer : ConfigSource} {setting value : Text} :
    checkEndpoint layer setting value = .ok () ↔
      (∃ rest, value = "https://".toList ++ rest ∧ rest ≠ []) ∨
        ∃ rest, value = "http://".toList ++ rest ∧ isLoopbackAuthority (authorityHost rest) = true := by
  rw [checkEndpoint]
  cases secure : Str.stripPrefix "https://".toList value with
  | some rest =>
    rw [Scan.stripPrefix_eq_some] at secure
    subst secure
    have plain : ¬ ∃ other, "https://".toList ++ rest = "http://".toList ++ other ∧
        isLoopbackAuthority (authorityHost other) = true := by
      rintro ⟨other, same, -⟩
      exact https_ne_http rest other same
    rw [or_iff_left plain]
    dsimp only
    constructor
    · intro ok
      split_ifs at ok with empty
      exact ⟨rest, rfl, empty⟩
    · rintro ⟨other, same, some_⟩
      rw [List.append_cancel_left same, if_neg some_]
  | none =>
    have insecure : ¬ ∃ rest, value = "https://".toList ++ rest ∧ rest ≠ [] := by
      rintro ⟨rest, same, -⟩
      rw [Scan.stripPrefix_eq_some.2 same] at secure
      cases secure
    rw [or_iff_right insecure]
    cases plain : Str.stripPrefix "http://".toList value with
    | some rest =>
      rw [Scan.stripPrefix_eq_some] at plain
      subst plain
      dsimp only
      constructor
      · intro ok
        split_ifs at ok with loopback
        exact ⟨rest, rfl, loopback⟩
      · rintro ⟨other, same, loopback⟩
        rw [List.append_cancel_left same, if_pos loopback]
    | none =>
      have other : ¬ ∃ rest, value = "http://".toList ++ rest ∧ isLoopbackAuthority (authorityHost rest) = true := by
        rintro ⟨rest, same, -⟩
        rw [Scan.stripPrefix_eq_some.2 same] at plain
        cases plain
      exact iff_of_false nofun other

/-- A plain host, and what stands behind it. -/
theorem hostPort_plain_iff {authority : Text} (plain : authority.head? ≠ some '[')
    (loopback : isLoopbackAuthority (authority.takeWhile (· ≠ ':')) = true) :
    (∃ host, HostPort host authority ∧ isLoopbackAuthority host = true) ↔
      Port (authority.dropWhile (· ≠ ':')) := by
  constructor
  · rintro ⟨host, fits, -⟩
    cases fits with
    | plain _ _ colonless wellFormed =>
      rw [(Port.dropWhile colonless wellFormed).2]
      exact wellFormed
    | bracketed => exact absurd rfl plain
  · intro wellFormed
    have some_ : authority.takeWhile (· ≠ ':') ≠ [] := by
      intro empty
      rw [empty, isLoopbackAuthority_nil] at loopback
      cases loopback
    have colonless : ':' ∉ authority.takeWhile (· ≠ ':') := fun mem => by
      simpa using List.mem_takeWhile_imp mem
    have same : authority.takeWhile (· ≠ ':') ++ authority.dropWhile (· ≠ ':') = authority :=
      List.takeWhile_append_dropWhile
    have first : (authority.takeWhile (· ≠ ':')).head? ≠ some '[' := by
      intro bracket
      obtain ⟨tail, split⟩ := List.head?_eq_some_iff.1 bracket
      rw [split] at same
      exact plain (by rw [← same]; rfl)
    refine ⟨_, ?_, loopback⟩
    have fits := HostPort.plain some_ first colonless wellFormed
    rwa [same] at fits

/-- What is accepted is an endpoint exactly where the parts that are not looked at are in order: the
authority under `https`, and what stands behind a plain loopback host. -/
theorem checkEndpoint_endpoint_iff (layer : ConfigSource) (setting value : Text) :
    (checkEndpoint layer setting value = .ok () → Endpoint value) ↔
      (∀ rest, value = "https://".toList ++ rest → rest ≠ [] →
        ∃ host, HostPort host (hostPort (authority rest))) ∧
      ∀ rest, value = "http://".toList ++ rest → '@' ∉ authority rest → (authority rest).head? ≠ some '[' →
        isLoopbackAuthority ((authority rest).takeWhile (· ≠ ':')) = true →
          Port ((authority rest).dropWhile (· ≠ ':')) := by
  rw [checkEndpoint_eq_ok]
  constructor
  · intro sound
    constructor
    · rintro rest rfl some_
      rcases sound (.inl ⟨rest, rfl, some_⟩) with ⟨other, same, fits⟩ | ⟨other, same, -⟩
      · rwa [List.append_cancel_left same]
      · exact absurd same (https_ne_http rest other)
    · rintro rest rfl user plain loopback
      have accepted : isLoopbackAuthority (authorityHost rest) = true := by
        rwa [authorityHost_of_plain plain user]
      rcases sound (.inr ⟨rest, rfl, accepted⟩) with ⟨other, same, -⟩ | ⟨other, same, -, fits⟩
      · exact absurd same.symm (https_ne_http other rest)
      · rw [← List.append_cancel_left same] at fits
        exact (hostPort_plain_iff plain loopback).1 fits
  · rintro ⟨secure, local_⟩ (⟨rest, rfl, some_⟩ | ⟨rest, rfl, loopback⟩)
    · exact .inl ⟨rest, rfl, secure rest rfl some_⟩
    · refine .inr ⟨rest, rfl, ?_⟩
      by_cases bracket : (authority rest).head? = some '['
      · obtain ⟨after, split⟩ := List.head?_eq_some_iff.1 bracket
        obtain ⟨user, fits⟩ := hostPort_of_bracket split loopback
        exact ⟨user, _, fits, loopback⟩
      · have user : '@' ∉ authority rest := by
          intro user
          rw [authorityHost, if_pos user, isLoopbackAuthority_nil] at loopback
          cases loopback
        rw [authorityHost_of_plain bracket user] at loopback
        exact ⟨user, (hostPort_plain_iff bracket loopback).2 (local_ rest rfl user bracket loopback)⟩

theorem HostPort.head_ne {host text : Text} (fits : HostPort host text) : text.head? ≠ some ':' := by
  cases fits with
  | plain nonempty _ colonless _ =>
    cases host with
    | nil => exact absurd rfl nonempty
    | cons c host =>
      intro colon
      rw [List.cons_append, List.head?_cons, Option.some.injEq] at colon
      exact colonless (colon ▸ List.mem_cons_self)
  | bracketed => simp

/-- Over `https` nothing behind the scheme is looked at, and over `http` a plain host's port is not. -/
theorem checkEndpoint_lets_through :
    (checkEndpoint .user "endpoint".toList "https://:evil/v1".toList = .ok () ∧
        ¬ Endpoint "https://:evil/v1".toList) ∧
      checkEndpoint .user "endpoint".toList "http://localhost:evil".toList = .ok () ∧
        ¬ Endpoint "http://localhost:evil".toList := by
  have hostless : "https://:evil/v1".toList = "https://".toList ++ ":evil/v1".toList := by decide
  have misported : "http://localhost:evil".toList = "http://".toList ++ "localhost:evil".toList := by decide
  refine ⟨⟨rfl, ?_⟩, rfl, ?_⟩
  · rw [hostless]
    rintro (⟨rest, same, host, fits⟩ | ⟨rest, same, -⟩)
    · rw [← List.append_cancel_left same] at fits
      exact fits.head_ne (by decide)
    · exact https_ne_http _ rest same
  · rw [misported]
    rintro (⟨rest, same, -⟩ | ⟨rest, same, -, accepted⟩)
    · exact https_ne_http rest _ same.symm
    · rw [← List.append_cancel_left same] at accepted
      have port := (hostPort_plain_iff (by decide) (by decide)).1 accepted
      rw [← portIsWellFormed_iff] at port
      revert port
      decide

end SupraHarness.Configuration
