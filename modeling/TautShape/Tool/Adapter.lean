import TautShape.Tool.Encode
import TautShape.Log.Node
/-!
# The log adapter

A node of the tool: frames in, frames out, around one engine.  The engine knows nothing
of log ids, so the adapter keeps the one of the last `Read` of each stream and writes it
on the responses of the stream.
-/

namespace TautShape.Tool

open TautShape.Lib
open TautShape.Log (Input Output Response State StopReason StopWhen LogNode)

variable {β ε : Type}

/-! ## What an output becomes -/

inductive TimerAction where
  | set (token delayMs : Int64)
  | cancel (token : Int64)
deriving DecidableEq

structure TeardownAction where
  reason : String
deriving DecidableEq

structure EngineEffect (β : Type) where
  frame : UInt8 × β
  timer : Option TimerAction
  teardown : Option TeardownAction

structure EngineEmission (β : Type) where
  output : Output
  effect : EngineEffect β

def toWireState : State → LogState
  | .data => .data
  | .wouldBlock => .wouldBlock
  | .eof => .eof
  | .closed => .closed
  | .failed => .failed
  | .expired => .expired

def toWireStopReason : StopReason → LogStopReason
  | .lastReaderGone => .lastReaderGone
  | .closed => .closed
  | .failed => .failed

/-- The derived `Debug` text. -/
def debugStopReason : StopReason → String
  | .lastReaderGone => "LastReaderGone"
  | .closed => "Closed"
  | .failed => "Failed"

/-- `read_response_cbor`; the log id is empty where the stream is not known. -/
def readResponse (resp : Response) (streamLogIds : BTreeMap String String) : LogReadResponse where
  logId := streamLogIds[resp.streamId]?.getD ""
  streamId := resp.streamId
  records := resp.records.map fun r => { seq := asI64 (.ofNat r.seq), payload := r.payload }
  nextCursor := { seq := asI64 (.ofNat resp.nextCursor.seq) }
  state := toWireState resp.state
  error := resp.error.map toWireError

def encodeOutput (w : CborWriter β) (streamLogIds : BTreeMap String String) :
    Output → LogMsgType × β
  | .response resp => (.readResponse, (readResponse resp streamLogIds).toCbor w)
  | .setTimer token ms =>
      (.setTimer, LogSetTimer.toCbor w
        { token := asI64 (.ofNat token), ms := asI64 (.ofNat ms) })
  | .cancelTimer token => (.cancelTimer, LogCancelTimer.toCbor w { token := asI64 (.ofNat token) })
  | .producerStop reason =>
      (.producerStop, LogProducerStop.toCbor w { reason := toWireStopReason reason })
  | .diagnostic diag => (.diagnostic, diagnosticToCbor w diag)

/-! ## The adapter -/

structure ReadEcho where
  logId : String
  streamId : String

/-- Only a `Read` frame carries the two ids; a malformed one is not echoed. -/
def readEcho (c : CborReader β ε) (frame : Frame β) : Option ReadEcho :=
  match LogMsgType.fromWire frame.tag.toNat with
  | some .read =>
      match LogReadRequest.fromCbor c frame.body with
      | .ok req => some { logId := req.logId, streamId := req.streamId }
      | .error _ => none
  | _ => none

structure LogAdapter where
  node : LogNode
  streamLogIds : BTreeMap String String

namespace LogAdapter

def new (stopWhen : StopWhen) : LogAdapter where
  node := LogNode.new { stopWhen }
  streamLogIds := ∅

def decodeInput (c : CborReader β ε) (a : LogAdapter) (frame : Frame β) :
    LogAdapter × Except AdapterDiagnostic Input :=
  let a := match readEcho c frame with
    | some echo => { a with streamLogIds := a.streamLogIds.insert echo.streamId echo.logId }
    | none => a
  (a, Tool.decodeInput c frame)

def dispatch (a : LogAdapter) (input : Input) : LogAdapter × List Output :=
  let (node, out) := a.node.handle input
  ({ a with node }, out)

def encodeOutput (w : CborWriter β) (a : LogAdapter) (output : Output) : EngineEffect β :=
  let (tag, body) := Tool.encodeOutput w a.streamLogIds output
  { frame := (.ofNat tag.wire, body)
    timer := match output with
      | .setTimer token ms => some (.set (asI64 (.ofNat token)) (asI64 (.ofNat ms)))
      | .cancelTimer token => some (.cancel (asI64 (.ofNat token)))
      | _ => none
    teardown := match output with
      | .producerStop reason => some { reason := debugStopReason reason }
      | _ => none }

end LogAdapter

/-! ## The runtime -/

/-- `EngineRuntime::dispatch` -/
def dispatch (w : CborWriter β) (a : LogAdapter) (input : Input) :
    LogAdapter × List (EngineEmission β) :=
  let (a, out) := a.dispatch input
  (a, out.map fun output => { output, effect := a.encodeOutput w output })

/-- `EngineRuntime::process` -/
def process (c : CborReader β ε) (w : CborWriter β) (a : LogAdapter) (frame : Frame β) :
    LogAdapter × Except AdapterDiagnostic (List (EngineEmission β)) :=
  match a.decodeInput c frame with
  | (a, .error d) => (a, .error d)
  | (a, .ok input) =>
      let (a, emissions) := dispatch w a input
      (a, .ok emissions)

section process

variable {c : CborReader β ε} {w : CborWriter β} {frame : Frame β}

theorem LogAdapter.node_decodeInput (a : LogAdapter) : (a.decodeInput c frame).1.node = a.node := by
  rw [LogAdapter.decodeInput]
  cases readEcho c frame <;> rfl

theorem process_of_ok {input : Input} (h : decodeInput c frame = .ok input) (a : LogAdapter) :
    process c w a frame =
      ((dispatch w (a.decodeInput c frame).1 input).1,
        .ok (dispatch w (a.decodeInput c frame).1 input).2) := by
  have hinput : (a.decodeInput c frame).2 = .ok input := h
  rw [process]
  generalize a.decodeInput c frame = p at hinput
  obtain ⟨b, result⟩ := p
  obtain rfl : result = .ok input := hinput
  rfl

theorem process_of_error {d : AdapterDiagnostic} (h : decodeInput c frame = .error d)
    (a : LogAdapter) : process c w a frame = ((a.decodeInput c frame).1, .error d) := by
  have hresult : (a.decodeInput c frame).2 = .error d := h
  rw [process]
  generalize a.decodeInput c frame = p at hresult
  obtain ⟨b, result⟩ := p
  obtain rfl : result = .error d := hresult
  rfl

end process

end TautShape.Tool
