import TautShape.Lib.Closure
import TautShape.Lib.Machine
import TautShape.Crdt.Clock
import TautShape.Crdt.Node
import TautShape.Crdt.Drain
import TautShape.Crdt.Invariant
import TautShape.Crdt.Panic
import TautShape.Crdt.Causal
import TautShape.Crdt.Delivery
import TautShape.Crdt.Integration
import TautShape.Crdt.Convergence
import TautShape.Lib.Polling
import TautShape.Crdt.Sync
import TautShape.Crdt.AntiEntropy
import TautShape.Crdt.Reader
import TautShape.Lib.Ledger
import TautShape.Log.Types
import TautShape.Log.Window
import TautShape.Log.Session
import TautShape.Log.Node
import TautShape.Log.Release
import TautShape.Log.Exchange
import TautShape.Log.History
import TautShape.Log.Drive
import TautShape.Lib.Sweep
import TautShape.Lib.Roster
import TautShape.Log.Order
import TautShape.Log.Effect
import TautShape.Log.Wakeup
import TautShape.Log.Watermark
import TautShape.Lib.Renumber
import TautShape.Log.Isolation
import TautShape.Lib.MaxBy
import TautShape.Value.Node
import TautShape.Value.Agreement
import TautShape.Lib.Desk
import TautShape.Lib.Serving
import TautShape.Lib.Checked
import TautShape.Lib.Intake
import TautShape.Held.Streams
import TautShape.Held.Refine
import TautShape.Held.Checked
import TautShape.Swmr.Types
import TautShape.Swmr.Node
import TautShape.Swmr.Effect
import TautShape.Swmr.Protocol
import TautShape.Swmr.Writes
import TautShape.Lib.Numbered
import TautShape.Swmr.History
import TautShape.Swmr.Replica
import TautShape.Stream.Types
import TautShape.Stream.Node
import TautShape.Stream.Ring
import TautShape.Stream.Effect
import TautShape.Stream.Turns
import TautShape.Stream.Protocol
import TautShape.Stream.History
import TautShape.Stream.Places
import TautShape.Stream.Delivery
import TautShape.Atom.Types
import TautShape.Atom.Node
import TautShape.Atom.Protocol
import TautShape.Atom.Panic
import TautShape.Atom.Freshness
import TautShape.Crdt.TextParser
import TautShape.Lib.Traversal
import TautShape.Crdt.Text
import TautShape.Crdt.TextForest
import TautShape.Crdt.TextOrder
import TautShape.Lib.Wire
import TautShape.Tool.Framing
import TautShape.Tool.FrameStream
import TautShape.Tool.FrameCap
import TautShape.Lib.Greedy
import TautShape.Log.Scan
import TautShape.Log.Indices
import TautShape.Log.Resume
import TautShape.Tool.Messages
import TautShape.Tool.Decode
import TautShape.Lib.Stopping
import TautShape.Log.Stops
import TautShape.Held.Stops
import TautShape.Atom.Stops
import TautShape.Producer
import TautShape.Log.Eviction
import TautShape.Lib.Formula
import TautShape.Scripts.ProcessGlobals
import TautShape.Value.Winner
import TautShape.Tool.Encode
import TautShape.Lib.Echo
import TautShape.Tool.Adapter
import TautShape.Tool.Routing
import TautShape.Lib.Utf8
import TautShape.Lib.JsonGrammar
import TautShape.Lib.Fields
import TautShape.Crdt.TextGrammar
import TautShape.Crdt.TextAcceptance
import TautShape.Crdt.TextPayload
import TautShape.Tool.Json
import TautShape.Tool.JsonLiteral
import TautShape.Tool.JsonAcceptance
import TautShape.Tool.JsonRoundTrip
import TautShape.Tool.JsonFaults
import TautShape.Lib.Timetable
import TautShape.Tool.Script
import TautShape.Tool.Pump
import TautShape.Lib.Numerals
import TautShape.Tool.Base64
import TautShape.Swmr.Store
import TautShape.Swmr.Panic
import TautShape.Crdt.Overflow
import TautShape.Tool.CrdtJson
import TautShape.Lib.Pipes
import TautShape.Tool.AtomTool
import TautShape.Tool.DriveClient
import TautShape.Swmr.Expiry
import TautShape.Tool.SwmrTool
import TautShape.Stream.Transcript
import TautShape.Tool.StreamTool
import TautShape.Log.Passage
import TautShape.Log.Reader
import TautShape.Tool.Client
import TautShape.Tool.Crossed
import TautShape.Lib.Cable
import TautShape.Tool.Processes
import TautShape.Tool.CrdtTool
