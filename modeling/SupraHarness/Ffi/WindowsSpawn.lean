import Mathlib.Data.List.Forall2
import SupraHarness.Ffi.Command
import SupraHarness.Lib.Appending
import SupraHarness.Lib.CommandLine

/-!
# The command line of the Windows spawn

Windows starts a program with one line of text, so the arguments are quoted into a line that the program splits again.
A backslash is written twice only where the rules would read it with a quote behind it. The program name is not read by
these rules; it comes back if it has no quote and does not end in a backslash.
-/
namespace SupraHarness.Ffi.Windows

open CommandLine Appending

/-- A NUL-terminated wide string. -/
structure WideString where
  units : Wide
  noNul : 0 ∉ units
  deriving DecidableEq, Repr

structure WideBuffer where
  data : Wide
  capacity : Nat
  deriving DecidableEq, Repr

/-- The largest `size_t`. -/
def sizeMax : Nat := 2 ^ 64 - 1

/-- The capacity doubled until it is enough, at most as often as a `size_t` has bits. -/
def grow (required : Nat) : Nat → Nat → Nat
  | 0, capacity => capacity
  | fuel + 1, capacity =>
    if required ≤ capacity then capacity
    else if sizeMax / 2 < capacity then required
    else grow required fuel (capacity * 2)

/-- Make room; `heap` tells for which capacities the heap has memory. -/
def reserve (heap : Nat → Bool) (extra : Nat) (buffer : WideBuffer) : Option WideBuffer :=
  if sizeMax - buffer.data.length - 1 < extra then none
  else
    let required := buffer.data.length + extra + 1
    if required ≤ buffer.capacity then some buffer
    else
      let capacity := grow required 64 (if buffer.capacity = 0 then 128 else buffer.capacity)
      if heap capacity then some { buffer with capacity := capacity } else none

def push (heap : Nat → Bool) (value : UInt16) (buffer : WideBuffer) : Option WideBuffer :=
  (reserve heap 1 buffer).map fun buffer => { buffer with data := buffer.data ++ [value] }

def append (heap : Nat → Bool) (value : Wide) (buffer : WideBuffer) : Option WideBuffer :=
  (reserve heap value.length buffer).map fun buffer => { buffer with data := buffer.data ++ value }

/-- The loop of `appendQuotedArgument`, with the backslashes it has not written yet. -/
def quoteLoop (heap : Nat → Bool) : Nat → Wide → WideBuffer → Option WideBuffer
  | pending, [], buffer => do
    let buffer ← writeAll (push heap) (slashes (pending * 2)) buffer
    push heap quote buffer
  | pending, c :: rest, buffer =>
    if c = backslash then quoteLoop heap (pending + 1) rest buffer
    else if c = quote then do
      let buffer ← writeAll (push heap) (slashes (pending * 2 + 1)) buffer
      let buffer ← push heap quote buffer
      quoteLoop heap 0 rest buffer
    else do
      let buffer ← writeAll (push heap) (slashes pending) buffer
      let buffer ← push heap c buffer
      quoteLoop heap 0 rest buffer

/-- The units that `wcspbrk` looks for. -/
def needsQuotes (c : UInt16) : Bool := c ∈ ([0x20, 0x09, 0x0A, 0x0B, 0x22] : Wide)

def appendQuotedArgument (heap : Nat → Bool) (argument : WideString) (buffer : WideBuffer) : Option WideBuffer :=
  if argument.units = [] ∨ argument.units.any needsQuotes then do
    let buffer ← push heap quote buffer
    quoteLoop heap 0 argument.units buffer
  else append heap argument.units buffer

/-- The loop of `buildCommandLine`, with a blank in front of every argument but the first. -/
def appendArguments (heap : Nat → Bool) (utf8ToWide : CString → Option WideString) :
    Bool → List CString → WideBuffer → Option WideBuffer
  | _, [], buffer => some buffer
  | first, argument :: rest, buffer => do
    let argument ← utf8ToWide argument
    let buffer ← if first then some buffer else push heap 0x20 buffer
    let buffer ← appendQuotedArgument heap argument buffer
    appendArguments heap utf8ToWide false rest buffer

def buildCommandLine (heap : Nat → Bool) (utf8ToWide : CString → Option WideString) (argv : List CString) :
    Option WideBuffer := do
  let buffer ← appendArguments heap utf8ToWide true argv ⟨[], 0⟩
  if buffer.data.length ≠ 0 then some buffer else none

/-! ## The text that is written -/

/-- The end of a quoted argument, with the backslashes in front of it. -/
def quotedRest : Nat → Wide → Wide
  | pending, [] => slashes (2 * pending) ++ [quote]
  | pending, c :: rest =>
    if c = backslash then quotedRest (pending + 1) rest
    else if c = quote then slashes (2 * pending + 1) ++ quote :: quotedRest 0 rest
    else slashes pending ++ c :: quotedRest 0 rest

/-- An argument as it stands on the line. -/
def quotedArgument (word : Wide) : Wide :=
  if word = [] ∨ word.any needsQuotes then quote :: quotedRest 0 word else word

/-- The whole line. -/
def commandLine : List Wide → Wide
  | [] => []
  | word :: words => quotedArgument word ++ words.flatMap fun word => 0x20 :: quotedArgument word

variable {heap : Nat → Bool} {limit : Nat}

/-- The heap has memory for every buffer below the limit. -/
def Granted (heap : Nat → Bool) (limit : Nat) : Prop :=
  limit ≤ sizeMax ∧ (0 < limit → ∀ capacity, heap capacity = true)

theorem reserve_data {extra : Nat} {buffer buffer' : WideBuffer} (h : reserve heap extra buffer = some buffer') :
    buffer'.data = buffer.data := by
  unfold reserve at h
  dsimp only at h
  split_ifs at h
  all_goals rw [← Option.some.inj h]

theorem reserve_succeeds (granted : Granted heap limit) {extra : Nat} {buffer : WideBuffer}
    (room : buffer.data.length + extra < limit) : ∃ buffer', reserve heap extra buffer = some buffer' := by
  have enough : ¬ sizeMax - buffer.data.length - 1 < extra := by
    have := granted.1
    omega
  unfold reserve
  dsimp only
  rw [if_neg enough, granted.2 (by omega), if_pos rfl]
  split
  · exact ⟨_, rfl⟩
  · exact ⟨_, rfl⟩

theorem appends_append (granted : Granted heap limit) (value : Wide) :
    Appends WideBuffer.data limit (append heap value) value where
  added h := by
    obtain ⟨reserved, hreserve, rfl⟩ := Option.map_eq_some_iff.1 h
    rw [reserve_data hreserve]
  succeeds room := by
    obtain ⟨reserved, hreserve⟩ := reserve_succeeds granted room
    exact ⟨_, by rw [append, hreserve]; rfl⟩

theorem appends_push (granted : Granted heap limit) (value : UInt16) :
    Appends WideBuffer.data limit (push heap value) [value] :=
  appends_append granted [value]

theorem appends_slashes (granted : Granted heap limit) (n : Nat) :
    Appends WideBuffer.data limit (writeAll (push heap) (slashes n)) (slashes n) := by
  have each : ∀ value ∈ slashes n, Appends WideBuffer.data limit (push heap value) [value] :=
    fun value _ => appends_push granted value
  have all := Appends.writeAll each
  rwa [List.flatMap_singleton'] at all

theorem appends_quoteLoop (granted : Granted heap limit) (pending : Nat) (word : Wide) :
    Appends WideBuffer.data limit (quoteLoop heap pending word) (quotedRest pending word) := by
  induction word generalizing pending with
  | nil =>
    rw [quotedRest, Nat.mul_comm]
    exact (appends_slashes granted _).bind (appends_push granted quote)
  | cons c word ih =>
    have step : quoteLoop heap pending (c :: word) = fun buffer =>
        if c = backslash then quoteLoop heap (pending + 1) word buffer
        else if c = quote then
          (writeAll (push heap) (slashes (pending * 2 + 1)) buffer).bind fun buffer =>
            (push heap quote buffer).bind (quoteLoop heap 0 word)
        else
          (writeAll (push heap) (slashes pending) buffer).bind fun buffer =>
            (push heap c buffer).bind (quoteLoop heap 0 word) := rfl
    rw [step, quotedRest]
    refine .ite (fun _ => ih _) fun _ => .ite (fun _ => ?_) fun _ => ?_
    · rw [Nat.mul_comm]
      exact (appends_slashes granted _).bind ((appends_push granted quote).bind (ih 0))
    · exact (appends_slashes granted _).bind ((appends_push granted c).bind (ih 0))

theorem appends_quotedArgument (granted : Granted heap limit) (argument : WideString) :
    Appends WideBuffer.data limit (appendQuotedArgument heap argument) (quotedArgument argument.units) :=
  .ite (fun _ => (appends_push granted quote).bind (appends_quoteLoop granted 0 argument.units))
    fun _ => appends_append granted argument.units

theorem appends_rest (granted : Granted heap limit) {utf8ToWide : CString → Option WideString} {argv : List CString}
    {words : List WideString} (converted : argv.mapM utf8ToWide = some words) :
    Appends WideBuffer.data limit (appendArguments heap utf8ToWide false argv)
      (words.flatMap fun word => 0x20 :: quotedArgument word.units) := by
  induction argv generalizing words with
  | nil =>
    obtain rfl := Option.some.inj converted
    exact .done
  | cons argument argv ih =>
    rw [List.mapM_cons] at converted
    obtain ⟨word, hword, converted⟩ := Option.bind_eq_some_iff.1 converted
    obtain ⟨rest, hrest, converted⟩ := Option.bind_eq_some_iff.1 converted
    obtain rfl := Option.some.inj converted
    have step : appendArguments heap utf8ToWide false (argument :: argv) = fun buffer =>
        (push heap 0x20 buffer).bind fun buffer =>
          (appendQuotedArgument heap word buffer).bind (appendArguments heap utf8ToWide false argv) := by
      funext buffer
      rw [appendArguments, hword]
      rfl
    rw [step]
    exact (appends_push granted 0x20).bind ((appends_quotedArgument granted word).bind (ih hrest))

theorem appends_arguments (granted : Granted heap limit) {utf8ToWide : CString → Option WideString} {argv : List CString}
    {words : List WideString} (converted : argv.mapM utf8ToWide = some words) :
    Appends WideBuffer.data limit (appendArguments heap utf8ToWide true argv)
      (commandLine (words.map WideString.units)) := by
  cases argv with
  | nil =>
    obtain rfl := Option.some.inj converted
    exact .done
  | cons argument argv =>
    rw [List.mapM_cons] at converted
    obtain ⟨word, hword, converted⟩ := Option.bind_eq_some_iff.1 converted
    obtain ⟨rest, hrest, converted⟩ := Option.bind_eq_some_iff.1 converted
    obtain rfl := Option.some.inj converted
    have step : appendArguments heap utf8ToWide true (argument :: argv) = fun buffer =>
        (appendQuotedArgument heap word buffer).bind (appendArguments heap utf8ToWide false argv) := by
      funext buffer
      rw [appendArguments, hword]
      rfl
    rw [step, List.map_cons, commandLine, List.flatMap_map]
    exact (appends_quotedArgument granted word).bind (appends_rest granted hrest)

/-! ## Reading it back -/

theorem plain_of_not_needsQuotes {c : UInt16} (h : needsQuotes c = false) : c ≠ quote ∧ isBlank c = false := by
  simp only [needsQuotes, List.mem_cons, decide_eq_false_iff_not, not_or] at h
  obtain ⟨space, tab, -, -, hquote, -⟩ := h
  exact ⟨hquote, by simp [isBlank, space, tab]⟩

theorem not_needsQuotes {word : Wide} (h : ¬ (word = [] ∨ word.any needsQuotes = true)) :
    word ≠ [] ∧ ∀ c ∈ word, c ≠ quote ∧ isBlank c = false := by
  rw [not_or, List.any_eq_true] at h
  refine ⟨h.1, fun c hc => plain_of_not_needsQuotes ?_⟩
  rw [← Bool.not_eq_true]
  exact fun needs => h.2 ⟨c, hc, needs⟩

theorem argument_quotedRest {tail rest : Wide} (follows : Follows tail rest) (pending : Nat) (word : Wide) :
    argument .inside 0 (quotedRest pending word ++ tail) = (slashes pending ++ word, rest) := by
  induction word generalizing pending with
  | nil =>
    rw [quotedRest, List.append_assoc, argument_slashes (by decide), Nat.zero_add, List.singleton_append,
      argument_closing, argument_follows (by decide) follows]
    simp [behind, slashes]
  | cons c word ih =>
    rw [quotedRest]
    by_cases hs : c = backslash
    · rw [if_pos hs, ih, slashes_succ, hs, List.append_assoc, List.singleton_append]
    by_cases hq : c = quote
    · rw [if_neg hs, if_pos hq, List.append_assoc, argument_slashes (by decide), Nat.zero_add, List.cons_append,
        argument_escaped, ih, hq]
      simp [behind, slashes]
    · rw [if_neg hs, if_neg hq, List.append_assoc, argument_slashes (by decide), Nat.zero_add, List.cons_append,
        argument_inside hs hq, ih]
      simp [behind, slashes]

/-- An argument on the line is read as the argument. -/
theorem reads_quotedArgument (word : Wide) : Reads (quotedArgument word) word := by
  rw [quotedArgument]
  split
  · refine ⟨⟨_, _, rfl, not_isBlank_quote⟩, fun tail rest follows => ?_⟩
    rw [List.cons_append, argument_opening, argument_quotedRest follows]
    rfl
  · rename_i plain
    obtain ⟨hne, plain⟩ := not_needsQuotes plain
    obtain ⟨c, rest, rfl⟩ := List.exists_cons_of_ne_nil hne
    exact ⟨⟨c, rest, rfl, (plain c List.mem_cons_self).2⟩, fun tail rest follows => argument_plain plain follows 0⟩

/-- Without quotes in it, and without a backslash at its end, a word is quoted as it is. -/
theorem quotedRest_plain {pending : Nat} {word : Wide} (hq : quote ∉ word) (hs : word.getLast? ≠ some backslash)
    (h : pending = 0 ∨ word ≠ []) : quotedRest pending word = slashes pending ++ (word ++ [quote]) := by
  induction word generalizing pending with
  | nil =>
    obtain rfl : pending = 0 := h.resolve_right fun hne => hne rfl
    rfl
  | cons c word ih =>
    rw [List.mem_cons, not_or] at hq
    rw [quotedRest]
    by_cases hc : c = backslash
    · cases word with
      | nil => exact absurd (congrArg some hc) hs
      | cons d word =>
        rw [if_pos hc, ih hq.2 (by rwa [List.getLast?_cons_cons] at hs) (.inr (List.cons_ne_nil _ _)), slashes_succ, hc,
          List.append_assoc, List.singleton_append, List.cons_append]
        rfl
    · have last : word.getLast? ≠ some backslash := by
        cases word with
        | nil => exact nofun
        | cons d word => rwa [List.getLast?_cons_cons] at hs
      rw [if_neg hc, if_neg (Ne.symm hq.1), ih hq.2 last (.inl rfl)]
      rfl

theorem programName_quotedArgument {word tail rest : Wide} (hq : quote ∉ word) (hs : word.getLast? ≠ some backslash)
    (follows : Follows tail rest) : programName false (quotedArgument word ++ tail) = (word, rest) := by
  have noQuote : ∀ c ∈ word, c ≠ quote := fun c hc h => hq (h ▸ hc)
  rw [quotedArgument]
  split
  · rw [quotedRest_plain hq hs (.inl rfl), List.cons_append, programName, if_pos rfl]
    simp only [slashes, List.replicate_zero, List.nil_append, List.append_assoc, Bool.not_false]
    rw [programName_append noQuote fun h => Bool.noConfusion h, List.singleton_append, programName, if_pos rfl, Bool.not_true,
      programName_follows follows, behind, List.append_nil]
  · rename_i plain
    rw [programName_append noQuote fun _ c hc => ((not_needsQuotes plain).2 c hc).2, programName_follows follows, behind,
      List.append_nil]

theorem splitCommandLine_commandLine {program : Wide} (words : List Wide) (hq : quote ∉ program)
    (hs : program.getLast? ≠ some backslash) : splitCommandLine (commandLine (program :: words)) = program :: words := by
  obtain ⟨rest, follows⟩ : ∃ rest, Follows (words.flatMap fun word => 0x20 :: quotedArgument word) rest := by
    cases words with
    | nil => exact ⟨[], .inl ⟨rfl, rfl⟩⟩
    | cons word words => exact ⟨_, .inr ⟨0x20, by decide, rfl⟩⟩
  have texts : List.Forall₂ Reads (words.map quotedArgument) words :=
    List.forall₂_map_left_iff.2 (List.forall₂_same.2 fun word _ => reads_quotedArgument word)
  rw [commandLine, splitCommandLine, programName_quotedArgument hq hs follows]
  dsimp only
  rw [arguments_of_reads 0x20 (by decide) texts (List.flatMap_map ..).symm follows (Nat.le_refl _)]

/-- The arguments come back from the line that is built, and the line is built if there is memory for it. -/
theorem command_line_round_trip (heap : Nat → Bool) (utf8ToWide : CString → Option WideString) (argv : List CString)
    (program : WideString) (words : List WideString) (converted : argv.mapM utf8ToWide = some (program :: words))
    (hq : quote ∉ program.units) (hs : program.units.getLast? ≠ some backslash) :
    (∀ line, buildCommandLine heap utf8ToWide argv = some line →
      splitCommandLine line.data = program.units :: words.map WideString.units) ∧
    ((∀ capacity, heap capacity = true) →
      (commandLine (program.units :: words.map WideString.units)).length < sizeMax →
      ∃ line, buildCommandLine heap utf8ToWide argv = some line) := by
  constructor
  · intro line built
    obtain ⟨buffer, written, built⟩ := Option.bind_eq_some_iff.1 built
    have nothing : Granted heap 0 := ⟨Nat.zero_le _, nofun⟩
    have text := (appends_arguments nothing converted).added written
    split at built
    · obtain rfl := Option.some.inj built
      rw [text]
      exact splitCommandLine_commandLine _ hq hs
    · cases built
  · intro memory short
    have granted : Granted heap sizeMax := ⟨Nat.le_refl _, fun _ => memory⟩
    have appends := appends_arguments granted converted
    obtain ⟨line, written⟩ := appends.succeeds (b := ⟨[], 0⟩) (by simpa using short)
    have nonempty : line.data.length ≠ 0 := by
      rw [appends.added written, List.nil_append, List.map_cons, commandLine, List.length_append]
      obtain ⟨c, rest, h, -⟩ := (reads_quotedArgument program.units).starts
      rw [h, List.length_cons]
      omega
    refine ⟨line, ?_⟩
    rw [buildCommandLine, written]
    exact if_pos nonempty

/-- The conversion on ASCII, where a unit is a byte. -/
def asciiToWide (text : CString) : Option WideString :=
  if text.bytes.all (· < 0x80) then
    some ⟨text.bytes.map UInt8.toUInt16, by
      rw [List.mem_map]
      rintro ⟨b, hb, zero⟩
      have nul : b = 0 := UInt8.toNat_inj.1 (congrArg UInt16.toNat zero)
      exact text.noNul (nul ▸ hb)⟩
  else none

/-- `C a`, `\"\` and the empty argument. -/
def sampleArgv : List CString := [⟨[0x43, 0x20, 0x61], by decide⟩, ⟨[0x5C, 0x22, 0x5C], by decide⟩, ⟨[], by decide⟩]

theorem command_line_round_trip_sample :
    ∃ line, buildCommandLine (fun _ => true) asciiToWide sampleArgv = some line ∧
      splitCommandLine line.data = [[0x43, 0x20, 0x61], [0x5C, 0x22, 0x5C], []] := by
  have trip := command_line_round_trip (fun _ => true) asciiToWide sampleArgv ⟨[0x43, 0x20, 0x61], by decide⟩
    [⟨[0x5C, 0x22, 0x5C], by decide⟩, ⟨[], by decide⟩] (by decide) (by decide) (by decide)
  obtain ⟨line, built⟩ := trip.2 (fun _ => rfl) (by decide)
  exact ⟨line, built, trip.1 line built⟩

end SupraHarness.Ffi.Windows
