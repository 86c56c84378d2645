import Mathlib.Data.List.TakeWhile
import SupraHarness.Lib.Utf8
import SupraHarness.Store.Transaction

/-!
# The manifest cache

One row for each tool that a server was found to offer, under the tool's namespaced name. Rows are
appended and never edited or deleted. An insert that would break a constraint of the table, the
primary key or a check, is ignored.
-/
namespace SupraHarness.Mcp

open SupraHarness.Store

structure CachedTool where
  tool : String
  server : String
  localName : String
  description : String
  inputSchema : String
  live : Bool
  deriving DecidableEq, Repr

namespace Cache

/-- `length(X)` of a text value: the characters before the first NUL. -/
def sqlLength (text : String) : Nat :=
  (text.toList.takeWhile fun c => c ≠ Char.ofNat 0).length

/-- `X LIKE '%\_\_%' ESCAPE '\'` -/
def hasNamespace (text : String) : Bool :=
  text.toList.tails.any fun rest => ['_', '_'].isPrefixOf rest

/-- The checks of the columns. -/
def checks (tool : CachedTool) : Bool :=
  hasNamespace tool.tool && sqlLength tool.tool ≤ 128 &&
    (0 < sqlLength tool.server && sqlLength tool.server ≤ 64) &&
    (0 < sqlLength tool.localName && sqlLength tool.localName ≤ 64) &&
    sqlLength tool.description ≤ 4096 && sqlLength tool.inputSchema ≤ 65536

/-- `INSERT OR IGNORE`: the rows after it, and whether the tool was inserted. -/
def insertOrIgnore (rows : List CachedTool) (tool : CachedTool) : List CachedTool × Bool :=
  if tool.tool ∉ rows.map (·.tool) ∧ checks tool = true then (rows ++ [tool], true)
  else (rows, false)

/-- Insert one tool row if absent; report whether it was inserted. -/
def append (faults : Faults) (n : Nat) (rows : List CachedTool) (tool : CachedTool) :
    Except StoreError (List CachedTool × Bool) :=
  match faults.statement n with
  | .error error => .error (.sqlite error)
  | .ok () => .ok (insertOrIgnore rows tool)

/-- The loop of appends of one probe, from statement `n` on. -/
def appendAll (faults : Faults) (n : Nat) (rows : List CachedTool) :
    List CachedTool → Except StoreError (List CachedTool)
  | [] => .ok rows
  | tool :: tools => do
    let (rows, _) ← append faults n rows tool
    appendAll faults (n + 1) rows tools

/-- How many rows the cache holds for a server. -/
def countForServer (rows : List CachedTool) (server : String) : Nat :=
  rows.countP fun row => row.server = server

/-- What a list of inserts leaves. -/
def inserted (rows tools : List CachedTool) : List CachedTool :=
  tools.foldl (fun rows tool => (insertOrIgnore rows tool).1) rows

theorem appendAll_eq_ok {faults : Faults} {n : Nat} {rows rows' tools : List CachedTool}
    (h : appendAll faults n rows tools = .ok rows') : rows' = inserted rows tools := by
  induction tools generalizing n rows with
  | nil =>
    cases h
    rfl
  | cons tool tools ih =>
    obtain ⟨⟨next, _⟩, happend, h⟩ := bind_eq_ok.mp h
    rw [append] at happend
    cases hf : faults.statement n with
    | error error =>
      rw [hf] at happend
      cases happend
    | ok u =>
      rw [hf] at happend
      have hnext : insertOrIgnore rows tool = (next, _) := Except.ok.inj happend
      rw [ih h]
      change _ = inserted (insertOrIgnore rows tool).1 tools
      rw [hnext]

/-- The inserts that are not ignored, in order: the first row of each new name that passes the
checks. -/
theorem inserted_spec (rows tools : List CachedTool) : ∃ added, inserted rows tools = rows ++ added ∧
    (∀ row ∈ added, row ∈ tools ∧ checks row = true ∧ row.tool ∉ rows.map (·.tool)) ∧
    (added.map (·.tool)).Nodup ∧
    ∀ tool ∈ tools, checks tool = true → tool.tool ∈ (rows ++ added).map (·.tool) := by
  induction tools generalizing rows with
  | nil => exact ⟨[], (List.append_nil rows).symm, nofun, List.nodup_nil, nofun⟩
  | cons tool tools ih =>
    rw [inserted, List.foldl_cons]
    by_cases hnew : tool.tool ∉ rows.map (·.tool) ∧ checks tool = true
    · rw [insertOrIgnore, if_pos hnew]
      obtain ⟨added, heq, hadded, hnodup, hall⟩ := ih (rows ++ [tool])
      rw [List.append_assoc] at heq hall
      refine ⟨tool :: added, heq, ?_, ?_, ?_⟩
      · refine List.forall_mem_cons.mpr ⟨⟨List.mem_cons_self, hnew.2, hnew.1⟩, ?_⟩
        intro row hrow
        obtain ⟨hmem, hchecks, hfresh⟩ := hadded row hrow
        rw [List.map_append, List.mem_append, not_or] at hfresh
        exact ⟨List.mem_cons_of_mem _ hmem, hchecks, hfresh.1⟩
      · refine List.nodup_cons.mpr ⟨?_, hnodup⟩
        intro hmem
        obtain ⟨row, hrow, hname⟩ := List.mem_map.mp hmem
        obtain ⟨-, -, hfresh⟩ := hadded row hrow
        exact hfresh (by simp [hname])
      · refine List.forall_mem_cons.mpr ⟨fun _ => by simp, hall⟩
    · rw [insertOrIgnore, if_neg hnew]
      obtain ⟨added, heq, hadded, hnodup, hall⟩ := ih rows
      refine ⟨added, heq, ?_, hnodup, ?_⟩
      · intro row hrow
        obtain ⟨hmem, hrest⟩ := hadded row hrow
        exact ⟨List.mem_cons_of_mem _ hmem, hrest⟩
      · refine List.forall_mem_cons.mpr ⟨?_, hall⟩
        intro hchecks
        rw [List.map_append, List.mem_append]
        exact .inl (not_not.mp fun hfresh => hnew ⟨hfresh, hchecks⟩)

end Cache

end SupraHarness.Mcp

/-!
## The gateway

A probe shakes hands with one server, follows its tool list to the end and appends what it found to
the cache. It refuses a server that does not answer, that speaks another version or that offers more
tools than the budget, and a tool whose name cannot be carried; a refused probe writes nothing. The
transport and the server behind it are what they answer.
-/
namespace SupraHarness.Mcp

open SupraHarness.Store

inductive McpError where
  | transport (detail : String)
  | protocol (detail : String)
  | protocolVersion (server gateway : String)
  | toolName (tool reason : String)
  | cache (source : StoreError)
  | tooManyTools (server : String) (count budget : Nat)
  deriving DecidableEq, Repr

def protocolVersion : String := "2025-06-18"

/-- How many tools one server may contribute before the budget refuses. -/
def toolsPerServer : Nat := 256

def maxListPages : Nat := 32

/-- `is_ascii_alphanumeric`, an underscore or a hyphen. -/
def isNameByte (byte : UInt8) : Bool :=
  (0x30 ≤ byte && byte ≤ 0x39) || (0x41 ≤ byte && byte ≤ 0x5A) || (0x61 ≤ byte && byte ≤ 0x7A) ||
    byte == 0x5F || byte == 0x2D

/-- `as_bytes` -/
def strBytes (text : String) : List UInt8 := Utf8.encode text.toList

/-- The checks of one part of a name. -/
def checkPart (part what : String) : Except McpError Unit :=
  if strBytes part = [] ∨ 64 < (strBytes part).length then
    .error (.toolName part s!"a {what} must be 1..=64 characters")
  else if !(strBytes part).all isNameByte then
    .error (.toolName part s!"a {what} must be ASCII letters, digits, underscore, or hyphen")
  else .ok ()

/-- The namespaced tool name: `server__tool`. -/
def namespaced (server tool : String) : Except McpError String := do
  checkPart server "server name"
  checkPart tool "tool name"
  let joined := server ++ "__" ++ tool
  if 128 < (strBytes joined).length then
    .error (.toolName joined "the namespaced name exceeds 128 characters")
  else .ok joined

section

variable {ι : Type}

/-- One tool as `tools/list` reports it, with a schema of any type. -/
structure RemoteTool (ι : Type) where
  name : String
  description : String
  inputSchema : ι

structure ToolsListResult (ι : Type) where
  tools : List (RemoteTool ι)
  nextCursor : Option String

/-- What a server answers in one probe: `listed` to the page of a number and a cursor. -/
structure Peer (ι : Type) where
  connect : Except McpError Unit
  negotiated : Except McpError String
  notify : Except McpError Unit
  listed : Nat → Option String → Except McpError (ToolsListResult ι)

structure ServerConfig (ι : Type) where
  name : String
  peer : Peer ι

/-- The pages from a number on, with so many left, behind the tools of the earlier ones. -/
def listPages (peer : Peer ι) : Nat → Nat → Option String → List (RemoteTool ι) →
    Except McpError (List (RemoteTool ι))
  | 0, _, none, tools => .ok tools
  | 0, _, some _, _ =>
    .error (.protocol s!"tools/list did not settle within {maxListPages} pages")
  | left + 1, page, cursor, tools => do
    let listed ← peer.listed page cursor
    match listed.nextCursor with
    | none => .ok (tools ++ listed.tools)
    | some next => listPages peer left (page + 1) (some next) (tools ++ listed.tools)

/-- The handshake and the list of tools, within the budget. -/
def discover (config : ServerConfig ι) : Except McpError (List (RemoteTool ι)) := do
  config.peer.connect
  let version ← config.peer.negotiated
  if version ≠ protocolVersion then .error (.protocolVersion version protocolVersion)
  else do
    config.peer.notify
    let tools ← listPages config.peer maxListPages 0 none []
    if toolsPerServer < tools.length then
      .error (.tooManyTools config.name tools.length toolsPerServer)
    else .ok tools

/-- The rows of one manifest. -/
def buildRows (schemaText : ι → Except String String) (server : String) :
    List (RemoteTool ι) → Except McpError (List CachedTool)
  | [] => .ok []
  | remote :: tools => do
    let tool ← namespaced server remote.name
    match schemaText remote.inputSchema with
    | .error error => .error (.protocol s!"input schema: {error}")
    | .ok inputSchema =>
      let rows ← buildRows schemaText server tools
      .ok (⟨tool, server, remote.name, remote.description, inputSchema, true⟩ :: rows)

/-- `Gateway::probe_one`: the rows after it, and the tools that were listed. -/
def probeOne (schemaText : ι → Except String String) (faults : Faults) (cached : List CachedTool)
    (config : ServerConfig ι) : List CachedTool × Except McpError (List (RemoteTool ι)) :=
  match discover config with
  | .error error => (cached, .error error)
  | .ok tools =>
    match buildRows schemaText config.name tools with
    | .error error => (cached, .error error)
    | .ok rows =>
      match withTransaction faults .sqlite cached fun cached =>
          (Cache.appendAll faults 0 cached rows).map fun cached => (cached, ()) with
      | (cached, .error error) => (cached, .error (.cache error))
      | (cached, .ok ()) => (cached, .ok tools)

/-- `Gateway::probe`, after the migration: every server in turn, with the refusals. -/
def probe (schemaText : ι → Except String String) (faults : Nat → Faults) (cached : List CachedTool) :
    List (ServerConfig ι) → List CachedTool × List (String × McpError)
  | [] => (cached, [])
  | config :: servers =>
    let (cached, answer) := probeOne schemaText (faults servers.length) cached config
    let (cached, refusals) := probe schemaText faults cached servers
    match answer with
    | .error error => (cached, (config.name, error) :: refusals)
    | .ok _ => (cached, refusals)

/-! ### Names -/

/-- A part that may stand in a name. -/
def Accepted (part : String) : Prop :=
  strBytes part ≠ [] ∧ (strBytes part).length ≤ 64 ∧ (strBytes part).all isNameByte = true

def joined (server tool : String) : String := server ++ "__" ++ tool

theorem checkPart_eq_ok {part what : String} : checkPart part what = .ok () ↔ Accepted part := by
  rw [checkPart, Accepted]
  split
  · next h =>
    refine iff_of_false nofun ?_
    rintro ⟨hne, hlen, -⟩
    rcases h with h | h
    · exact hne h
    · omega
  · next h =>
    rw [not_or] at h
    split
    · next hb =>
      refine iff_of_false nofun ?_
      rintro ⟨-, -, hall⟩
      rw [hall] at hb
      cases hb
    · next hb => exact iff_of_true rfl ⟨h.1, by omega, by simpa using hb⟩

/-- The pairs of names that are accepted, and the name they get. -/
theorem namespaced_eq_ok {server tool name : String} : namespaced server tool = .ok name ↔
    (Accepted server ∧ Accepted tool ∧ (strBytes (joined server tool)).length ≤ 128) ∧
      name = joined server tool := by
  rw [namespaced]
  constructor
  · intro h
    obtain ⟨_, hserver, h⟩ := bind_eq_ok.mp h
    obtain ⟨_, htool, h⟩ := bind_eq_ok.mp h
    simp only at h
    split at h
    · cases h
    · next hlen =>
      cases h
      exact ⟨⟨checkPart_eq_ok.mp hserver, checkPart_eq_ok.mp htool, by
        rw [joined]
        omega⟩, rfl⟩
  · rintro ⟨⟨hserver, htool, hlen⟩, rfl⟩
    rw [joined] at hlen
    refine bind_eq_ok.mpr ⟨(), checkPart_eq_ok.mpr hserver, ?_⟩
    refine bind_eq_ok.mpr ⟨(), checkPart_eq_ok.mpr htool, ?_⟩
    simp only
    rw [if_neg (by omega)]
    rfl

/-- Names of one server tell its tools apart. -/
theorem joined_right_inj {server tool tool' : String} (h : joined server tool = joined server tool') :
    tool = tool' := by
  have h' := congrArg String.toList h
  simp only [joined, String.toList_append] at h'
  exact String.toList_injective (List.append_cancel_left h')

theorem nameChar_of_byte {c : Char} (h : (String.utf8EncodeChar c).all isNameByte = true) :
    c.toNat < 0x80 ∧ c ≠ Char.ofNat 0 := by
  have hne := Utf8.utf8EncodeChar_ne_nil c
  obtain hlt | hge := Nat.lt_or_ge c.toNat 0x80
  · refine ⟨hlt, ?_⟩
    rintro rfl
    exact absurd h (by decide)
  · obtain ⟨lead, tail, hshape, hlead⟩ := Utf8.utf8EncodeChar_wide hge
    rw [hshape, List.all_cons, Bool.and_eq_true] at h
    have hname := h.1
    simp only [isNameByte, Bool.or_eq_true, Bool.and_eq_true, decide_eq_true_eq, beq_iff_eq,
      UInt8.le_iff_toNat_le, UInt8.reduceToNat, ← UInt8.toNat_inj] at hname hlead
    omega

/-- The characters of a name are one byte each, and none of them is NUL. -/
theorem length_of_name {cs : List Char} (h : (Utf8.encode cs).all isNameByte = true) :
    (Utf8.encode cs).length = cs.length ∧ ∀ c ∈ cs, c ≠ Char.ofNat 0 := by
  induction cs with
  | nil => exact ⟨rfl, nofun⟩
  | cons c cs ih =>
    rw [Utf8.encode_cons, List.all_append, Bool.and_eq_true] at h
    obtain ⟨hlt, hne⟩ := nameChar_of_byte h.1
    obtain ⟨hlen, hall⟩ := ih h.2
    refine ⟨?_, List.forall_mem_cons.mpr ⟨hne, hall⟩⟩
    rw [Utf8.encode_cons, Utf8.utf8EncodeChar_ascii hlt, List.length_append, hlen, List.length_cons,
      List.length_cons, List.length_nil]
    omega

theorem sqlLength_of_name {text : String} (h : (strBytes text).all isNameByte = true) :
    Cache.sqlLength text = (strBytes text).length := by
  obtain ⟨hlen, hall⟩ := length_of_name h
  rw [Cache.sqlLength, strBytes, hlen, List.takeWhile_eq_self_iff.mpr]
  intro c hc
  simpa using hall c hc

theorem hasNamespace_joined (server tool : String) : Cache.hasNamespace (joined server tool) = true := by
  rw [Cache.hasNamespace, List.any_eq_true]
  refine ⟨['_', '_'] ++ tool.toList, ?_, by simp⟩
  rw [List.mem_tails]
  refine ⟨server.toList, ?_⟩
  simp [joined, String.toList_append]

/-- The row of a tool that can be carried passes every check but those of its texts. -/
theorem checks_row {server name description inputSchema : String} {live : Bool}
    (hserver : Accepted server) (hname : Accepted name)
    (hlen : (strBytes (joined server name)).length ≤ 128) :
    Cache.checks ⟨joined server name, server, name, description, inputSchema, live⟩ = true ↔
      Cache.sqlLength description ≤ 4096 ∧ Cache.sqlLength inputSchema ≤ 65536 := by
  have hjoined : (strBytes (joined server name)).all isNameByte = true := by
    simp only [strBytes, joined, String.toList_append, Utf8.encode_append, List.all_append,
      Bool.and_eq_true]
    exact ⟨⟨hserver.2.2, by decide⟩, hname.2.2⟩
  have hs := sqlLength_of_name hserver.2.2
  have hn := sqlLength_of_name hname.2.2
  have hsp := List.length_pos_iff.mpr hserver.1
  have hnp := List.length_pos_iff.mpr hname.1
  have hsl := hserver.2.1
  have hnl := hname.2.1
  simp only [Cache.checks, hasNamespace_joined, sqlLength_of_name hjoined, hs, hn, Bool.and_eq_true,
    decide_eq_true_eq, true_and]
  constructor
  · rintro ⟨⟨-, hd⟩, hi⟩
    exact ⟨hd, hi⟩
  · rintro ⟨hd, hi⟩
    exact ⟨⟨⟨⟨hlen, hsp, hsl⟩, hnp, hnl⟩, hd⟩, hi⟩

end

end SupraHarness.Mcp
