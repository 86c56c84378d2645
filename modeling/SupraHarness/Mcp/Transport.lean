import SupraHarness.Lib.CappedLines
import SupraHarness.Lib.Str
import SupraHarness.Llm.Value
import SupraHarness.Mcp.Gateway

/-!
# The stdio transport

A call writes its request and reads lines until one of them is the response. The server's output comes in
chunks, and a line is capped; but the cap is looked at only where a chunk ends inside the line. Two deliveries of
one output are read alike exactly if they cut the same lines beyond the cap.
-/
namespace SupraHarness.Mcp

open SupraHarness.Llm (Value)
open CappedLines (readLine Boundary Cut)

/-- The largest line a server may send. -/
def maxLineBytes : Nat := 4 * 1024 * 1024

/-- What comes when all that the server wrote is read: it has closed its output, the pipe breaks, or nothing. -/
inductive Ending where
  | closed
  | broken (detail : String)
  | silent
  deriving DecidableEq, Repr

/-- The server's output as the pipe delivers it, from what is in the buffer on. -/
@[ext] structure Pipe where
  chunks : List (List UInt8)
  ending : Ending
  nonempty : ∀ chunk ∈ chunks, chunk ≠ []

def Pipe.stream (pipe : Pipe) : List UInt8 := pipe.chunks.flatten

def isLineEnd (byte : UInt8) : Bool := byte = 10 || byte = 13

/-- A line without its end, malformed bytes replaced. -/
def lineText (line : List UInt8) : String :=
  String.ofList (Str.fromUtf8Lossy (line.reverse.dropWhile isLineEnd).reverse)

def capError : McpError := .protocol s!"a line exceeded the {maxLineBytes}-byte frame cap"

/-- What a read comes to: a line, or an empty one when the server closes its output. -/
def lineOf (ending : Ending) : CappedLines.Read UInt8 → Except McpError String
  | .line line _ => .ok (lineText line)
  | .over _ => .error capError
  | .ended line =>
    match ending with
    | .closed => .ok (lineText line)
    | .broken detail => .error (.transport s!"read: {detail}")
    | .silent => .error (.transport "the server did not answer within the call timeout")

def readBoundedLine (pipe : Pipe) : Except McpError String × Pipe :=
  let read := readLine maxLineBytes 10 [] pipe.chunks
  (lineOf pipe.ending read, ⟨read.left, pipe.ending, CappedLines.left_nonempty _ _ pipe.nonempty⟩)

theorem readBoundedLine_fst (pipe : Pipe) :
    (readBoundedLine pipe).1 = lineOf pipe.ending (readLine maxLineBytes 10 [] pipe.chunks) := rfl

theorem readBoundedLine_chunks (pipe : Pipe) :
    (readBoundedLine pipe).2.chunks = (readLine maxLineBytes 10 [] pipe.chunks).left := rfl

structure RpcError where
  code : Int
  message : String
  deriving DecidableEq, Repr

variable {φ : Type}

/-- A response, with what a call reads of it. -/
structure Response (φ : Type) where
  result : Option (Value φ)
  error : Option RpcError

def answer (response : Response φ) : Except McpError (Value φ) :=
  match response.error with
  | some error => .error (.protocol s!"json-rpc error {error.code}: {error.message}")
  | none =>
    match response.result with
    | some result => .ok result
    | none => .error (.protocol "the response has neither result nor error")

/-- Whether a value is the response to a request. -/
def isResponseFor (value : Value φ) (id : UInt64) : Bool :=
  if (value.get "id").isNone then false
  else if (value.get "jsonrpc").bind Value.asStr ≠ some "2.0" then false
  else (value.get "id").bind Value.asU64 = some id

structure Request (φ : Type) where
  jsonrpc : String
  id : UInt64
  method : String
  params : Value φ

def Request.new (id : UInt64) (method : String) (params : Value φ) : Request φ := ⟨"2.0", id, method, params⟩

/-- A transport to a server that runs: its output, and the last identifier. -/
structure Stdio where
  pipe : Pipe
  id : UInt64

/-- The end of a call, and the results of the reads on the way. -/
structure Wait (φ : Type) where
  read : List (Except McpError String)
  answer : Except McpError (Value φ)
  pipe : Pipe

section

variable (fromStr : String → Except String (Value φ)) (fromValue : Value φ → Except String (Response φ))

/-- What a line comes to, if the call does not pass over it. -/
def examine (id : UInt64) (line : String) : Option (Except McpError (Value φ)) :=
  if line = "" then some (.error (.transport "the server closed without answering"))
  else
    match fromStr line with
    | .error error => some (.error (.protocol s!"the answer is not JSON: {error}"))
    | .ok value =>
      if (value.get "id").isSome && (value.get "jsonrpc").isNone then
        some (.error (.protocol "the answer does not claim JSON-RPC 2.0"))
      else if isResponseFor value id then
        match fromValue value with
        | .error error => some (.error (.protocol s!"the answer is not JSON-RPC: {error}"))
        | .ok response => some (answer response)
      else none

theorem shorter_of_examine {fromStr : String → Except String (Value φ)}
    {fromValue : Value φ → Except String (Response φ)} {id : UInt64} {pipe rest : Pipe} {line : String}
    (read : readBoundedLine pipe = (.ok line, rest)) (passed : examine fromStr fromValue id line = none) :
    rest.stream.length < pipe.stream.length := by
  have full : line ≠ "" := by
    rintro rfl
    rw [examine, if_pos rfl] at passed
    cases passed
  have text := readBoundedLine_fst pipe
  have left := readBoundedLine_chunks pipe
  rw [read] at text left
  rw [Pipe.stream, Pipe.stream, left]
  cases taken : readLine maxLineBytes 10 [] pipe.chunks with
  | line line chunks => exact CappedLines.length_of_readLine taken
  | ended last =>
    rw [taken] at text
    unfold lineOf at text
    dsimp only at text
    cases ending : pipe.ending with
    | closed =>
      rw [ending] at text
      refine List.length_pos_of_ne_nil fun empty => full ?_
      have nothing := CappedLines.flatten_of_ended taken
      rw [empty] at nothing
      rw [Except.ok.inj text, nothing]
      rfl
    | broken detail =>
      rw [ending] at text
      cases text
    | silent =>
      rw [ending] at text
      cases text
  | _ =>
    rw [taken] at text
    cases text

/-- Read until a line is the response. -/
def awaitAnswer (id : UInt64) (pipe : Pipe) : Wait φ :=
  match _read : readBoundedLine pipe with
  | (.error error, rest) => ⟨[.error error], .error error, rest⟩
  | (.ok line, rest) =>
    match _passed : examine fromStr fromValue id line with
    | some answer => ⟨[.ok line], answer, rest⟩
    | none =>
      let wait := awaitAnswer id rest
      { wait with read := .ok line :: wait.read }
termination_by pipe.stream.length
decreasing_by exact shorter_of_examine _read _passed

variable (toText : Request φ → Except String String) (write : String → Except String Unit)

/-- The request goes out. -/
def send (request : Request φ) : Except McpError Unit :=
  match toText request with
  | .error error => .error (.protocol s!"serialise: {error}")
  | .ok line =>
    match write (line ++ "\n") with
    | .error error => .error (.transport s!"write: {error}")
    | .ok () => .ok ()

/-- Issue a request and wait for its response. -/
def call (transport : Stdio) (method : String) (params : Value φ) : Wait φ × Stdio :=
  let id := transport.id + 1
  let wait := match send toText write (.new id method params) with
    | .error error => ⟨[], .error error, transport.pipe⟩
    | .ok () => awaitAnswer fromStr fromValue id transport.pipe
  (wait, ⟨wait.pipe, id⟩)

/-! ## What is promised -/

/-- A line with a response to a request, and what a call makes of it. -/
structure Responds (id : UInt64) (line : String) (value : Value φ) : Prop where
  json : fromStr line = .ok value
  version : value.get "jsonrpc" = some (.string "2.0")
  own : value.get "id" = some (.number (.posInt id))

/-- A result is that of the first line with a response to the request. -/
def FirstResponse (id : UInt64) (wait : Wait φ) : Prop :=
  ∀ result, wait.answer = .ok result → ∃ (before : List String) (line : String) (value : Value φ) (response : Response φ),
    wait.read = before.map .ok ++ [.ok line] ∧ (∀ earlier ∈ before, ∀ value, ¬ Responds fromStr id earlier value) ∧
      Responds fromStr id line value ∧ fromValue value = .ok response ∧ answer response = .ok result

/-- Two calls read the same lines, none of them above the cap, and have the same answer, from the first response. -/
structure Agreed (id : UInt64) (one other : Wait φ) : Prop where
  read : one.read = other.read
  bounded : ∀ line, .ok line ∈ one.read → line.utf8ByteSize ≤ maxLineBytes
  answer : one.answer = other.answer
  first : FirstResponse fromStr fromValue id one

/-- A chunk ends beyond the cap in a line that goes on from a position for a length. -/
abbrev Pipe.Cuts (pipe : Pipe) (start length : Nat) : Prop := Cut maxLineBytes 0 pipe.chunks start length

/-- Of the lines of a stream, for as long as a call looks at them: both deliveries cut a line beyond the cap, or
neither does and its text is within it. Of the last, which nothing ends, the text counts if the server closes. -/
def Fair (one other : Pipe) (id : UInt64) : Nat → List (List UInt8) → Prop
  | _, [] => True
  | _, [last] => one.ending = .closed → last.length ≤ maxLineBytes → (lineText last).utf8ByteSize ≤ maxLineBytes
  | start, line :: next :: lines =>
    one.Cuts start line.length ∧ other.Cuts start line.length ∨
      (¬ one.Cuts start line.length ∧ ¬ other.Cuts start line.length) ∧ (lineText line).utf8ByteSize ≤ maxLineBytes ∧
        (examine fromStr fromValue id (lineText line) = none →
          Fair one other id (start + line.length + 1) (next :: lines))

end

/-! ## One read -/

/-- The pipe when its stream is read up to a position. -/
structure Pipe.At (pipe : Pipe) (start : Nat) (rest : Pipe) : Prop where
  ending : rest.ending = pipe.ending
  boundary : ∀ position, 0 < position → (Boundary rest.chunks position ↔ Boundary pipe.chunks (start + position))

theorem Pipe.At.start (pipe : Pipe) : pipe.At 0 pipe where
  ending := rfl
  boundary position _ := by rw [Nat.zero_add]

theorem Pipe.At.cuts_iff {pipe rest : Pipe} {start : Nat} (at_ : pipe.At start rest) (length : Nat) :
    Cut maxLineBytes 0 rest.chunks 0 length ↔ pipe.Cuts start length := by
  rw [Pipe.Cuts, Cut, Cut]
  refine exists_congr fun position => and_congr_right fun pos => and_congr_left fun _ => ?_
  rw [Nat.zero_add, at_.boundary position pos]

theorem lineText_concat (text : List UInt8) : lineText (text ++ [10]) = lineText text := by
  rw [lineText, lineText, List.reverse_append, List.reverse_singleton, List.singleton_append, List.dropWhile_cons]
  rfl

theorem read_of_cut {pipe rest : Pipe} {start : Nat} {text more : List UInt8} (at_ : pipe.At start rest)
    (fresh : 10 ∉ text) (stream : rest.stream = text ++ 10 :: more) (cut : pipe.Cuts start text.length) :
    (readBoundedLine rest).1 = .error capError := by
  have beyond : Cut maxLineBytes ([] : List UInt8).length rest.chunks 0 text.length := (at_.cuts_iff _).2 cut
  obtain ⟨left, read⟩ := CappedLines.readLine_cut rest.nonempty fresh stream beyond
  rw [readBoundedLine_fst, read]
  rfl

theorem read_of_whole {pipe rest : Pipe} {start : Nat} {text more : List UInt8} (at_ : pipe.At start rest)
    (fresh : 10 ∉ text) (stream : rest.stream = text ++ 10 :: more) (whole : ¬ pipe.Cuts start text.length) :
    (readBoundedLine rest).1 = .ok (lineText text) ∧ (readBoundedLine rest).2.stream = more ∧
      pipe.At (start + text.length + 1) (readBoundedLine rest).2 := by
  have within : ¬ Cut maxLineBytes ([] : List UInt8).length rest.chunks 0 text.length := mt (at_.cuts_iff _).1 whole
  obtain ⟨left, read, behind⟩ := CappedLines.readLine_whole rest.nonempty fresh stream within
  have after : (readBoundedLine rest).2.chunks = left := by
    rw [readBoundedLine_chunks, read]
    rfl
  refine ⟨?_, ?_, at_.ending, fun position pos => ?_⟩
  · rw [readBoundedLine_fst, read, List.nil_append]
    exact congrArg Except.ok (lineText_concat text)
  · rw [Pipe.stream, after, behind.flatten]
  · rw [after, behind.boundary position pos, at_.boundary _ (by omega), Nat.add_assoc start, Nat.add_assoc start]

/-- The pipe of which everything is read. -/
def Pipe.done (ending : Ending) : Pipe := ⟨[], ending, nofun⟩

/-- What is read of a stream without a line end depends on its bytes and on what comes then. -/
theorem read_last {rest : Pipe} (fresh : 10 ∉ rest.stream) :
    (readBoundedLine rest).1 =
        (if maxLineBytes < rest.stream.length then .error capError else lineOf rest.ending (.ended rest.stream)) ∧
      (rest.stream.length ≤ maxLineBytes → (readBoundedLine rest).2 = .done rest.ending) := by
  rw [readBoundedLine_fst]
  rcases CappedLines.readLine_last maxLineBytes [] rest.nonempty fresh (.inr (Nat.zero_le _)) with
    ⟨read, short⟩ | ⟨⟨left, read⟩, long⟩
  · have short : rest.stream.length ≤ maxLineBytes := short
    rw [if_neg (Nat.not_lt.2 short), read]
    refine ⟨rfl, fun _ => ?_⟩
    have none_left := readBoundedLine_chunks rest
    rw [read] at none_left
    exact Pipe.ext none_left rfl
  · have long : maxLineBytes < rest.stream.length := long
    rw [if_pos long, read]
    exact ⟨rfl, fun short => absurd long (Nat.not_lt.2 short)⟩

/-! ## The loop -/

section

variable {fromStr : String → Except String (Value φ)} {fromValue : Value φ → Except String (Response φ)} {id : UInt64}
  {pipe : Pipe} {line : String}

theorem awaitAnswer_error {error : McpError} (read : (readBoundedLine pipe).1 = .error error) :
    awaitAnswer fromStr fromValue id pipe = ⟨[.error error], .error error, (readBoundedLine pipe).2⟩ := by
  obtain ⟨rest, whole⟩ : ∃ rest, readBoundedLine pipe = (.error error, rest) := ⟨_, Prod.ext read rfl⟩
  rw [awaitAnswer, whole]

theorem awaitAnswer_answer {answer : Except McpError (Value φ)} (read : (readBoundedLine pipe).1 = .ok line)
    (examined : examine fromStr fromValue id line = some answer) :
    awaitAnswer fromStr fromValue id pipe = ⟨[.ok line], answer, (readBoundedLine pipe).2⟩ := by
  obtain ⟨rest, whole⟩ : ∃ rest, readBoundedLine pipe = (.ok line, rest) := ⟨_, Prod.ext read rfl⟩
  rw [awaitAnswer, whole]
  dsimp only
  split
  · rename_i other equal
    rw [examined] at equal
    rw [Option.some.inj equal]
  · rename_i equal
    rw [examined] at equal
    cases equal

theorem awaitAnswer_pass (read : (readBoundedLine pipe).1 = .ok line)
    (passed : examine fromStr fromValue id line = none) :
    awaitAnswer fromStr fromValue id pipe =
      let wait := awaitAnswer fromStr fromValue id (readBoundedLine pipe).2
      { wait with read := .ok line :: wait.read } := by
  obtain ⟨rest, whole⟩ : ∃ rest, readBoundedLine pipe = (.ok line, rest) := ⟨_, Prod.ext read rfl⟩
  rw [awaitAnswer, whole]
  dsimp only
  split
  · rename_i other equal
    rw [passed] at equal
    cases equal
  · rfl

theorem isResponseFor_iff {value : Value φ} :
    isResponseFor value id = true ↔
      value.get "jsonrpc" = some (.string "2.0") ∧ value.get "id" = some (.number (.posInt id)) := by
  have text : (value.get "jsonrpc").bind Value.asStr = some "2.0" ↔ value.get "jsonrpc" = some (.string "2.0") := by
    cases value.get "jsonrpc" with
    | none => exact iff_of_false nofun nofun
    | some item => cases item <;> simp [Value.asStr]
  have number : (value.get "id").bind Value.asU64 = some id ↔ value.get "id" = some (.number (.posInt id)) := by
    cases value.get "id" with
    | none => exact iff_of_false nofun nofun
    | some item =>
      cases item with
      | number n => cases n <;> simp [Value.asU64]
      | _ => simp [Value.asU64]
  rw [isResponseFor, ← text, ← number]
  by_cases absent : (value.get "id").isNone = true
  · rw [if_pos absent]
    rw [Option.isNone_iff_eq_none] at absent
    simp [absent]
  · rw [if_neg absent]
    by_cases version : (value.get "jsonrpc").bind Value.asStr = some "2.0"
    · rw [if_neg (not_not.2 version), decide_eq_true_eq, and_iff_right version]
    · rw [if_pos version]
      exact iff_of_false nofun fun both => version both.1

theorem examine_of_responds {value : Value φ} (responds : Responds fromStr id line value) :
    examine fromStr fromValue id line ≠ none := by
  unfold examine
  rw [responds.json]
  dsimp only
  rw [if_pos (isResponseFor_iff.2 ⟨responds.version, responds.own⟩)]
  split_ifs
  · exact nofun
  · exact nofun
  · cases fromValue value <;> exact nofun

theorem responds_of_examine {result : Value φ} (examined : examine fromStr fromValue id line = some (.ok result)) :
    ∃ value response, Responds fromStr id line value ∧ fromValue value = .ok response ∧ answer response = .ok result := by
  unfold examine at examined
  split_ifs at examined
  · cases examined
  · cases json : fromStr line with
    | error error =>
      rw [json] at examined
      cases examined
    | ok value =>
      rw [json] at examined
      dsimp only at examined
      split_ifs at examined with unversioned own
      · cases examined
      · obtain ⟨version, own⟩ := isResponseFor_iff.1 own
        cases read : fromValue value with
        | error error =>
          rw [read] at examined
          cases examined
        | ok response =>
          rw [read] at examined
          exact ⟨value, response, ⟨json, version, own⟩, read, Option.some.inj examined⟩

variable (fromStr fromValue id)

/-- A call passes over lines until one of them, or an error, is its end. -/
theorem awaitAnswer_ends (pipe : Pipe) : ∃ (before : List String) (last : Except McpError String),
    (awaitAnswer fromStr fromValue id pipe).read = before.map .ok ++ [last] ∧
      (∀ line ∈ before, examine fromStr fromValue id line = none) ∧
        match last with
        | .error error => (awaitAnswer fromStr fromValue id pipe).answer = .error error
        | .ok line => examine fromStr fromValue id line = some (awaitAnswer fromStr fromValue id pipe).answer := by
  induction pipe using awaitAnswer.induct fromStr fromValue id with
  | case1 pipe error rest read =>
    rw [awaitAnswer_error (congrArg Prod.fst read)]
    exact ⟨[], .error error, rfl, List.forall_mem_nil _, rfl⟩
  | case2 pipe line rest read answer examined =>
    rw [awaitAnswer_answer (congrArg Prod.fst read) examined]
    exact ⟨[], .ok line, rfl, List.forall_mem_nil _, examined⟩
  | case3 pipe line rest read passed ih =>
    have step := awaitAnswer_pass (congrArg Prod.fst read) passed
    rw [read] at step
    rw [step]
    obtain ⟨before, last, reads, others, ends⟩ := ih
    refine ⟨line :: before, last, ?_, List.forall_mem_cons.2 ⟨passed, others⟩, ends⟩
    rw [List.map_cons, List.cons_append, ← reads]

theorem answer_of_read {one other : Pipe}
    (read : (awaitAnswer fromStr fromValue id one).read = (awaitAnswer fromStr fromValue id other).read) :
    (awaitAnswer fromStr fromValue id one).answer = (awaitAnswer fromStr fromValue id other).answer := by
  obtain ⟨before, last, reads, -, ends⟩ := awaitAnswer_ends fromStr fromValue id one
  obtain ⟨before', last', reads', -, ends'⟩ := awaitAnswer_ends fromStr fromValue id other
  rw [reads, reads'] at read
  obtain ⟨-, same⟩ := List.append_inj' read rfl
  obtain rfl := List.singleton_injective same
  cases last with
  | error error => exact ends.trans ends'.symm
  | ok line => exact Option.some.inj (ends.symm.trans ends')

theorem awaitAnswer_first (pipe : Pipe) :
    FirstResponse fromStr fromValue id (awaitAnswer fromStr fromValue id pipe) := by
  intro result answered
  obtain ⟨before, last, reads, others, ends⟩ := awaitAnswer_ends fromStr fromValue id pipe
  cases last with
  | error error =>
    rw [ends] at answered
    cases answered
  | ok line =>
    rw [answered] at ends
    obtain ⟨value, response, responds, read, answers⟩ := responds_of_examine ends
    refine ⟨before, line, value, response, reads, ?_, responds, read, answers⟩
    intro earlier mem value responds
    exact examine_of_responds responds (others earlier mem)

/-! ## Two deliveries -/

/-- The same is read, and no line above the cap. -/
def Alike (one other : Wait φ) : Prop :=
  one.read = other.read ∧ ∀ line, .ok line ∈ one.read → line.utf8ByteSize ≤ maxLineBytes

variable {fromStr fromValue id} {one other : Pipe}

theorem alike_of_error {error : McpError} (read : (readBoundedLine one).1 = .error error)
    (read' : (readBoundedLine other).1 = .error error) :
    Alike (awaitAnswer fromStr fromValue id one) (awaitAnswer fromStr fromValue id other) := by
  rw [awaitAnswer_error read, awaitAnswer_error read']
  refine ⟨rfl, fun line mem => ?_⟩
  cases List.mem_singleton.1 mem

theorem alike_line_iff (read : (readBoundedLine one).1 = .ok line) (read' : (readBoundedLine other).1 = .ok line) :
    Alike (awaitAnswer fromStr fromValue id one) (awaitAnswer fromStr fromValue id other) ↔
      line.utf8ByteSize ≤ maxLineBytes ∧ (examine fromStr fromValue id line = none →
        Alike (awaitAnswer fromStr fromValue id (readBoundedLine one).2)
          (awaitAnswer fromStr fromValue id (readBoundedLine other).2)) := by
  cases examined : examine fromStr fromValue id line with
  | some answer =>
    rw [awaitAnswer_answer read examined, awaitAnswer_answer read' examined, and_iff_left nofun]
    constructor
    · intro alike
      exact alike.2 line (List.mem_singleton_self _)
    · intro short
      refine ⟨rfl, fun other mem => ?_⟩
      cases List.mem_singleton.1 mem
      exact short
  | none =>
    rw [awaitAnswer_pass read examined, awaitAnswer_pass read' examined, Alike, Alike]
    simp only [List.mem_cons, List.cons.injEq, true_and, forall_const]
    constructor
    · rintro ⟨same, bounded⟩
      exact ⟨bounded line (.inl rfl), same, fun other mem => bounded other (.inr mem)⟩
    · rintro ⟨short, same, bounded⟩
      refine ⟨same, ?_⟩
      rintro other (equal | mem)
      · cases equal
        exact short
      · exact bounded other mem

theorem awaitAnswer_head (pipe : Pipe) :
    (awaitAnswer fromStr fromValue id pipe).read.head? = some (readBoundedLine pipe).1 := by
  cases read : (readBoundedLine pipe).1 with
  | error error => rw [awaitAnswer_error read, List.head?_cons]
  | ok line =>
    cases examined : examine fromStr fromValue id line with
    | some answer => rw [awaitAnswer_answer read examined, List.head?_cons]
    | none => rw [awaitAnswer_pass read examined, List.head?_cons]

theorem not_alike (differ : (readBoundedLine one).1 ≠ (readBoundedLine other).1) :
    ¬ Alike (awaitAnswer fromStr fromValue id one) (awaitAnswer fromStr fromValue id other) := by
  intro alike
  have heads := congrArg List.head? alike.1
  rw [awaitAnswer_head, awaitAnswer_head] at heads
  exact differ (Option.some.inj heads)

/-- When everything is read, an empty line or an error follows. -/
theorem alike_done (ending : Ending) :
    Alike (awaitAnswer fromStr fromValue id (.done ending)) (awaitAnswer fromStr fromValue id (.done ending)) := by
  cases ending with
  | closed =>
    have read : (readBoundedLine (.done .closed)).1 = .ok "" := rfl
    rw [awaitAnswer_answer read (if_pos rfl : examine fromStr fromValue id "" = some _)]
    refine ⟨rfl, fun other mem => ?_⟩
    cases List.mem_singleton.1 mem
    exact Nat.zero_le _
  | broken detail => exact alike_of_error rfl rfl
  | silent => exact alike_of_error rfl rfl

/-- The last part of two streams, which nothing ends. -/
theorem alike_last_iff (fresh : 10 ∉ one.stream) (stream : one.stream = other.stream) (ending : one.ending = other.ending) :
    Alike (awaitAnswer fromStr fromValue id one) (awaitAnswer fromStr fromValue id other) ↔
      (one.ending = .closed → one.stream.length ≤ maxLineBytes → (lineText one.stream).utf8ByteSize ≤ maxLineBytes) := by
  obtain ⟨read, rest⟩ := read_last fresh
  obtain ⟨read', rest'⟩ := read_last (stream ▸ fresh)
  rw [← stream, ← ending] at read' rest'
  by_cases long : maxLineBytes < one.stream.length
  · rw [if_pos long] at read read'
    exact iff_of_true (alike_of_error read read') fun _ short => absurd long (Nat.not_lt.2 short)
  · rw [if_neg long] at read read'
    have short := Nat.not_lt.1 long
    cases closed : one.ending with
    | closed =>
      rw [closed] at read read' rest rest'
      rw [alike_line_iff read read', rest short, rest' short, and_iff_left fun _ => alike_done _]
      exact ⟨fun bounded _ _ => bounded, fun bounded => bounded rfl short⟩
    | broken detail =>
      rw [closed] at read read'
      exact iff_of_true (alike_of_error read read') nofun
    | silent =>
      rw [closed] at read read'
      exact iff_of_true (alike_of_error read read') nofun

/-- From a position on, two calls read alike exactly if the deliveries are fair there. -/
theorem alike_iff_fair {start : Nat} {rest rest' : Pipe} (at_ : one.At start rest) (at_' : other.At start rest')
    (stream : rest.stream = rest'.stream) (ending : one.ending = other.ending) :
    Alike (awaitAnswer fromStr fromValue id rest) (awaitAnswer fromStr fromValue id rest') ↔
      Fair fromStr fromValue one other id start (rest.stream.splitOn 10) := by
  induction length : rest.stream.length using Nat.strong_induction_on generalizing start rest rest' with
  | _ n ih =>
    by_cases ended : 10 ∈ rest.stream
    · obtain ⟨text, more, whole, fresh⟩ := List.eq_append_cons_of_mem ended
      have whole' := stream ▸ whole
      obtain ⟨next, lines, others⟩ := List.exists_cons_of_ne_nil (List.splitOn_ne_nil 10 more)
      rw [whole, List.splitOn_append_cons_self_of_not_mem fresh, others, Fair]
      by_cases cut : one.Cuts start text.length
      · have read := read_of_cut at_ fresh whole cut
        by_cases cut' : other.Cuts start text.length
        · exact iff_of_true (alike_of_error read (read_of_cut at_' fresh whole' cut')) (.inl ⟨cut, cut'⟩)
        · refine iff_of_false (not_alike ?_) ?_
          · rw [read, (read_of_whole at_' fresh whole' cut').1]
            exact nofun
          · rintro (⟨-, both⟩ | ⟨⟨neither, -⟩, -⟩)
            · exact cut' both
            · exact neither cut
      · obtain ⟨read, after, at_⟩ := read_of_whole at_ fresh whole cut
        by_cases cut' : other.Cuts start text.length
        · refine iff_of_false (not_alike ?_) ?_
          · rw [read, read_of_cut at_' fresh whole' cut']
            exact nofun
          · rintro (⟨both, -⟩ | ⟨⟨-, neither⟩, -⟩)
            · exact cut both
            · exact neither cut'
        · obtain ⟨read', after', at_'⟩ := read_of_whole at_' fresh whole' cut'
          have shorter : more.length < n := by
            rw [← length, whole, List.length_append, List.length_cons]
            omega
          rw [alike_line_iff read read', ih more.length shorter at_ at_' (after.trans after'.symm) (by rw [after]),
            after, others]
          constructor
          · intro both
            exact .inr ⟨⟨cut, cut'⟩, both⟩
          · rintro (⟨both, -⟩ | ⟨-, both⟩)
            · exact absurd both cut
            · exact both
    · rw [alike_last_iff ended stream (at_.ending.trans (ending.trans at_'.ending.symm)), at_.ending]
      rw [List.splitOn_eq_singleton ended, Fair]

theorem agreed_iff_alike :
    Agreed fromStr fromValue id (awaitAnswer fromStr fromValue id one) (awaitAnswer fromStr fromValue id other) ↔
      Alike (awaitAnswer fromStr fromValue id one) (awaitAnswer fromStr fromValue id other) := by
  constructor
  · intro agreed
    exact ⟨agreed.read, agreed.bounded⟩
  · rintro ⟨read, bounded⟩
    exact ⟨read, bounded, answer_of_read fromStr fromValue id read, awaitAnswer_first fromStr fromValue id one⟩

variable (fromStr fromValue) (toText : Request φ → Except String String) (write : String → Except String Unit)

theorem call_of_error {transport : Stdio} {method : String} {params : Value φ} {error : McpError}
    (sent : send toText write (.new (transport.id + 1) method params) = .error error) :
    (call fromStr fromValue toText write transport method params).1 = ⟨[], .error error, transport.pipe⟩ := by
  rw [call, sent]

theorem call_of_sent {transport : Stdio} {method : String} {params : Value φ}
    (sent : send toText write (.new (transport.id + 1) method params) = .ok ()) :
    (call fromStr fromValue toText write transport method params).1 =
      awaitAnswer fromStr fromValue (transport.id + 1) transport.pipe := by
  rw [call, sent]

/-- A call on two deliveries of one output agrees exactly if its request does not go out or they are fair. -/
theorem call_agreed_iff (one other : Stdio) (stream : one.pipe.stream = other.pipe.stream)
    (ending : one.pipe.ending = other.pipe.ending) (last : one.id = other.id) (method : String) (params : Value φ) :
    Agreed fromStr fromValue (one.id + 1) (call fromStr fromValue toText write one method params).1
        (call fromStr fromValue toText write other method params).1 ↔
      (send toText write (.new (one.id + 1) method params) = .ok () →
        Fair fromStr fromValue one.pipe other.pipe (one.id + 1) 0 (one.pipe.stream.splitOn 10)) := by
  cases sent : send toText write (.new (one.id + 1) method params) with
  | error error =>
    rw [call_of_error fromStr fromValue toText write sent, call_of_error fromStr fromValue toText write (last ▸ sent)]
    refine iff_of_true ⟨rfl, nofun, rfl, fun result answered => ?_⟩ nofun
    cases answered
  | ok _ =>
    rw [call_of_sent fromStr fromValue toText write sent, call_of_sent fromStr fromValue toText write (last ▸ sent),
      forall_prop_of_true rfl, ← alike_iff_fair (.start one.pipe) (.start other.pipe) stream ending, ← last]
    exact agreed_iff_alike

end

/-! ## A line of one byte, and one above the cap -/

section

variable (fromValue : Value Unit → Except String (Response Unit))

def notJson (_ : String) : Except String (Value Unit) := .error "expected value"

def listed (_ : Request Unit) : Except String String := .ok "\x7b\x7d"

def taken (_ : String) : Except String Unit := .ok ()

/-- The letter x and a line feed, in one chunk and in two. -/
def inOne : Pipe := ⟨[[120, 10]], .closed, by decide⟩

def inTwo : Pipe := ⟨[[120], [10]], .closed, by decide⟩

theorem call_agreed_short :
    Agreed notJson (fun _ => .error "missing field") 1
      (call notJson (fun _ => .error "missing field") listed taken ⟨inOne, 0⟩ "tools/list" .null).1
      (call notJson (fun _ => .error "missing field") listed taken ⟨inTwo, 0⟩ "tools/list" .null).1 := by
  refine (call_agreed_iff notJson (fun _ => .error "missing field") listed taken ⟨inOne, 0⟩ ⟨inTwo, 0⟩
    rfl rfl rfl "tools/list" .null).2 fun _ => .inr ⟨⟨?_, ?_⟩, ?_, nofun⟩
  · rintro ⟨position, -, -, beyond, inside⟩
    exact absurd (Nat.lt_of_lt_of_le beyond (Nat.add_le_add_left inside 0)) (by decide)
  · rintro ⟨position, -, -, beyond, inside⟩
    exact absurd (Nat.lt_of_lt_of_le beyond (Nat.add_le_add_left inside 0)) (by decide)
  · decide +kernel

/-- As many full buffers as the cap. -/
def blocks : List (List UInt8) := List.replicate 512 (List.replicate 8192 120)

theorem flatten_blocks : blocks.flatten = List.replicate maxLineBytes 120 := List.flatten_replicate_replicate

theorem blocks_nonempty : ∀ chunk ∈ blocks, chunk ≠ [] := by
  intro chunk mem
  rw [List.eq_of_mem_replicate mem]
  exact List.cons_ne_nil _ _

/-- One more byte, and the line feed in its chunk. -/
def swallowed : Pipe := ⟨blocks ++ [[120, 10]], .closed, List.forall_mem_append.2 ⟨blocks_nonempty, by decide⟩⟩

/-- The line feed in a chunk of its own. -/
def refused : Pipe := ⟨blocks ++ [[120], [10]], .closed, List.forall_mem_append.2 ⟨blocks_nonempty, by decide⟩⟩

/-- Where the line feed comes with the byte above the cap the line is read, and otherwise it is refused. -/
theorem call_differs :
    ¬ Agreed notJson (fun _ => .error "missing field") 1
      (call notJson (fun _ => .error "missing field") listed taken ⟨swallowed, 0⟩ "tools/list" .null).1
      (call notJson (fun _ => .error "missing field") listed taken ⟨refused, 0⟩ "tools/list" .null).1 := by
  intro agreed
  have fresh : 10 ∉ List.replicate (maxLineBytes + 1) (120 : UInt8) := fun mem =>
    absurd (List.eq_of_mem_replicate mem) (by decide)
  have total : (List.replicate (maxLineBytes + 1) (120 : UInt8)).length = blocks.flatten.length + 1 := by
    rw [flatten_blocks, List.length_replicate, List.length_replicate]
  have stream : swallowed.stream = List.replicate (maxLineBytes + 1) 120 ++ [10] := by
    rw [Pipe.stream, swallowed, List.flatten_append, flatten_blocks, List.replicate_succ', List.append_assoc]
    rfl
  have stream' : refused.stream = List.replicate (maxLineBytes + 1) 120 ++ [10] := by
    rw [Pipe.stream, refused, List.flatten_append, flatten_blocks, List.replicate_succ', List.append_assoc]
    rfl
  have cap : blocks.flatten.length = maxLineBytes := by rw [flatten_blocks, List.length_replicate]
  have whole : ¬ swallowed.Cuts 0 (List.replicate (maxLineBytes + 1) (120 : UInt8)).length := by
    rw [total, cap]
    rintro ⟨position, -, ⟨front, back, chunks, length⟩, beyond, inside⟩
    rcases List.prefix_concat_iff.1 ⟨back, chunks.symm⟩ with rfl | within
    · rw [List.flatten_append, List.length_append, cap] at length
      simp at length
      omega
    · have bound := within.sublist.flatten.length_le
      omega
  have cut : refused.Cuts 0 (List.replicate (maxLineBytes + 1) (120 : UInt8)).length := by
    rw [total, cap]
    refine ⟨maxLineBytes + 1, Nat.succ_pos _, ⟨blocks ++ [[120]], [[10]], ?_, ?_⟩, by omega, le_refl _⟩
    · rw [refused, List.append_assoc]
      rfl
    · rw [List.flatten_append, List.length_append, cap, Nat.zero_add]
      rfl
  refine not_alike ?_ (agreed_iff_alike.1 agreed)
  rw [(read_of_whole (.start swallowed) fresh stream whole).1, read_of_cut (.start refused) fresh stream' cut]
  exact nofun

end

end SupraHarness.Mcp
