import SupraHarness.Lib.Transducer
import SupraHarness.Ansi.Scanner
import SupraHarness.Ansi.Bytewise
import SupraHarness.Ansi.Chunking
import SupraHarness.Shell.Shaper
import SupraHarness.Lib.Gaps
import SupraHarness.Lib.Run
import SupraHarness.EventBus.Bus
import SupraHarness.Store.Schema
import SupraHarness.Lib.Code
import SupraHarness.Types.Id
import SupraHarness.Types.Hash
import SupraHarness.Types.Segment
import SupraHarness.Prompt.Ledger
import SupraHarness.Prompt.Prefix
import SupraHarness.Prompt.Restore
import SupraHarness.Types.Cohort
import SupraHarness.Store.Transaction
import SupraHarness.Lib.Slots
import SupraHarness.Blackboard.Schema
import SupraHarness.Blackboard.Board
import SupraHarness.Blackboard.Coherence
import SupraHarness.Blackboard.Calls
import SupraHarness.Blackboard.Runs
import SupraHarness.Core.Turn
import SupraHarness.Core.Agreement
import SupraHarness.Lib.Blocks
import SupraHarness.Vector.CodeTable
import SupraHarness.Lib.Replica
import SupraHarness.Vector.Index
import SupraHarness.Vector.Handles
import SupraHarness.Journal.Journal
import SupraHarness.Journal.Undo
import SupraHarness.Journal.History
import SupraHarness.Store.Turns
import SupraHarness.Types.Tally
import SupraHarness.Ansi.Params
import SupraHarness.Ansi.Sgr
import SupraHarness.Lib.Ranges
import SupraHarness.Width.Tables
import SupraHarness.Lib.Utf8
import SupraHarness.Width.Utf8
import SupraHarness.Width.Grapheme
import SupraHarness.Lib.Framing
import SupraHarness.Lib.Str
import SupraHarness.Llm.Anthropic
import SupraHarness.Llm.Google
import SupraHarness.Llm.Sse
import SupraHarness.Llm.Blocks
import SupraHarness.Lib.JsonGrammar
import SupraHarness.Llm.Scanner
import SupraHarness.Llm.Loose
import SupraHarness.Llm.Strict
import SupraHarness.Llm.Torn
import SupraHarness.Llm.Duplicates
import SupraHarness.Mcp.Gateway
import SupraHarness.Mcp.Manifest
import SupraHarness.Lib.OrdMap
import SupraHarness.Lib.Precedence
import SupraHarness.Config.Layer
import SupraHarness.Config.Resolve
import SupraHarness.Secrets.FileStore
import SupraHarness.Secrets.Vaults
import SupraHarness.Secrets.Manager
import SupraHarness.Session.Checkpoint
import SupraHarness.Session.Store
import SupraHarness.Session.Clients
import SupraHarness.Lib.Generations
import SupraHarness.Log.Sink
import SupraHarness.Lib.Scan
import SupraHarness.Log.Redact
import SupraHarness.Log.Lines
import SupraHarness.Log.Hiding
import SupraHarness.Digest.Graph
import SupraHarness.Digest.Crates
import SupraHarness.Digest.Imports
import SupraHarness.Digest.Index
import SupraHarness.Digest.Scan
import SupraHarness.Digest.Watch
import SupraHarness.Digest.Fresh
import SupraHarness.Digest.Events
import SupraHarness.Prompt.Breakpoints
import SupraHarness.Introspector.Bridge
import SupraHarness.Cli.Validation
import SupraHarness.Ffi.Command
import SupraHarness.Guard.Layers
import SupraHarness.Sandbox.Spawn
import SupraHarness.Ffi.LinuxSpawn
import SupraHarness.Lib.Chunks
import SupraHarness.Rpc.Framing
import SupraHarness.Lsp.Client
import SupraHarness.Dap.Client
import SupraHarness.Dap.Order
import SupraHarness.Journal.Newest
import SupraHarness.Lib.Fitting
import SupraHarness.Width.Cells
import SupraHarness.Ansi.Pieces
import SupraHarness.Ansi.Truncate
import SupraHarness.Loader.Manifest
import SupraHarness.Loader.Held
import SupraHarness.Loader.Reload
import SupraHarness.Vector.Cache
import SupraHarness.Lib.Hamming
import SupraHarness.Lib.Selection
import SupraHarness.Vector.Nearest
import SupraHarness.Prompt.Evict
import SupraHarness.Ansi.Progress
import SupraHarness.Ansi.Writer
import SupraHarness.Ansi.Strip
import SupraHarness.Ansi.Rendered
import SupraHarness.Shell.Plain
import SupraHarness.Types.Hex
import SupraHarness.Vector.Fuse
import SupraHarness.Vector.Search
import SupraHarness.Llm.LineEndings
import SupraHarness.Lib.Hindsight
import SupraHarness.Llm.RenderGoogle
import SupraHarness.Lib.Rose
import SupraHarness.Digest.Harvest
import SupraHarness.Digest.Retrieve
import SupraHarness.Llm.OpenAi
import SupraHarness.Digest.Uses
import SupraHarness.Shell.Clean
import SupraHarness.Lib.JsonUnique
import SupraHarness.Lib.JsonWrite
import SupraHarness.Llm.Canonical
import SupraHarness.Llm.Spelling
import SupraHarness.Llm.CanonicalForm
import SupraHarness.Llm.RenderBody
import SupraHarness.Llm.Replay
import SupraHarness.Ast.Outline
import SupraHarness.Ast.Splice
import SupraHarness.Ast.Rename
import SupraHarness.Config.Endpoint
import SupraHarness.Lib.DebugText
import SupraHarness.Config.TomlError
import SupraHarness.Guard.Minted
import SupraHarness.Digest.Gist
import SupraHarness.Log.Hits
import SupraHarness.Log.Remains
import SupraHarness.Log.Twice
import SupraHarness.Session.Reached
import SupraHarness.Lib.JsonSchema
import SupraHarness.Tool.Registry
import SupraHarness.Lib.CappedLines
import SupraHarness.Mcp.Transport
import SupraHarness.Lib.Topological
import SupraHarness.Loader.Order
import SupraHarness.Loader.Standing
import SupraHarness.Lib.Lines
import SupraHarness.Loader.Form
import SupraHarness.Loader.Fences
import SupraHarness.Rpc.Agreement
import SupraHarness.Lib.Positions
import SupraHarness.Lsp.Positions
import SupraHarness.Lib.FileUri
import SupraHarness.Lsp.References
import SupraHarness.Lib.ShellQuoting
import SupraHarness.Hook.ShellWords
import SupraHarness.Update.Apply
import SupraHarness.Cohort.Profile
import SupraHarness.Blackboard.Rotation
import SupraHarness.Ffi.WindowsSpawn
import SupraHarness.Ffi.MacProfile
import SupraHarness.Ffi.Kill
import SupraHarness.Lib.Slices
import SupraHarness.Log.Offsets
import SupraHarness.Ffi.Redirect
import SupraHarness.Cohort.Admission
import SupraHarness.Permission.Gate
import SupraHarness.Tui.Status
import SupraHarness.Vector.Lexical
