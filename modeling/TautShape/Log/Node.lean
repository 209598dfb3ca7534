import TautShape.Log.Session
import TautShape.Log.Window
import TautShape.Lib.Machine
/-!
# The log engine

`LogNode` and its inputs, function by function.  A read that cannot be answered is
parked in the session table; a later input resolves the parked reads again, in the
order their streams were created.
-/

namespace TautShape.Log

open TautShape.Lib

inductive StopWhen where
  | lastReader
  | explicitOnly
deriving DecidableEq, Repr

structure Config where
  stopWhen : StopWhen
deriving DecidableEq, Repr

inductive Resolution where
  | data
  | terminal (state : State) (error : Option Error)
  | expired (next : Cursor)
  | caughtUpLive
deriving DecidableEq, Repr

structure LogNode where
  window : Window
  sessions : Table
  stopWhen : StopWhen
  nextTimer : Nat

namespace LogNode

def new (config : Config) : LogNode where
  window := Window.new
  sessions := Table.new
  stopWhen := config.stopWhen
  nextTimer := 0

def head (n : LogNode) : Nat := n.window.head

def floor (n : LogNode) : Nat := n.window.floor

def minWatermark (n : LogNode) : Option Nat := n.sessions.minWatermark

def streamCount (n : LogNode) : Nat := n.sessions.len

def classify (n : LogNode) (cursor : Cursor) : Resolution :=
  if n.head < cursor.seq then
    .expired ⟨n.head⟩
  else if 0 < n.floor ∧ cursor.seq + 1 < n.floor then
    .expired ⟨n.floor - 1⟩
  else if cursor.seq < n.head then
    .data
  else
    match n.window.lifecycle with
    | .sealed => .terminal .eof none
    | .closed => .terminal .closed none
    | .failed e => .terminal .failed (some e)
    | .live => .caughtUpLive

def cancelTimer : Option TimerToken → List Output
  | some token => [.cancelTimer token]
  | none => []

/-! ## Reads -/

def onRead (n : LogNode) (streamId : StreamId) (cursor : Option Cursor) (limits : Limits)
    (timeoutMs : Option Nat) : LogNode × List Output :=
  let cursor := cursor.getD Cursor.start
  let (sessions, prev) := (n.sessions.getOrCreate streamId).clearHeld streamId
  let out := cancelTimer (prev.bind HeldRead.timer)
  let n := { n with sessions := sessions }
  match n.classify cursor with
  | .data =>
      let (records, last) := n.window.scan cursor.seq limits
      ({ n with sessions := n.sessions.setWatermark streamId last },
        out ++ [.response ⟨streamId, records, ⟨last⟩, .data, none⟩])
  | .terminal state error => (n, out ++ [.response ⟨streamId, [], cursor, state, error⟩])
  | .expired next => (n, out ++ [.response ⟨streamId, [], next, .expired, none⟩])
  | .caughtUpLive =>
      match timeoutMs with
      | some 0 => (n, out ++ [.response ⟨streamId, [], cursor, .wouldBlock, none⟩])
      | none => ({ n with sessions := n.sessions.setHeld streamId ⟨cursor, limits, none⟩ }, out)
      | some ms =>
          let token := n.nextTimer + 1
          ({ n with
              nextTimer := token
              sessions := n.sessions.setHeld streamId ⟨cursor, limits, some token⟩ },
            out ++ [.setTimer token ms])

/-! ## Releasing held reads -/

/-- The response to a released read, `none` when it stays parked; the timer of an
answered read is cancelled. -/
def resolveHeld (n : LogNode) (id : StreamId) (held : HeldRead) :
    LogNode × Option Response × List Output :=
  let cancel := cancelTimer held.timer
  match n.classify held.cursor with
  | .data =>
      let (records, last) := n.window.scan held.cursor.seq held.limits
      ({ n with sessions := n.sessions.setWatermark id last },
        some ⟨id, records, ⟨last⟩, .data, none⟩, cancel)
  | .terminal state error => (n, some ⟨id, [], held.cursor, state, error⟩, cancel)
  | .expired next => (n, some ⟨id, [], next, .expired, none⟩, cancel)
  | .caughtUpLive => (n, none, [])

/-- The body of the sweep.  Every stream of the sweep holds a read, which the source
unwraps. -/
def releaseOne (n : LogNode) (id : StreamId) : LogNode × List Output :=
  match n.sessions.clearHeld id with
  | (_, none) => (n, [])
  | (sessions, some held) =>
      match ({ n with sessions := sessions }).resolveHeld id held with
      | (n, some response, out) => (n, out ++ [.response response])
      | (n, none, out) => ({ n with sessions := n.sessions.setHeld id held }, out)

def releaseHeld (n : LogNode) : LogNode × List Output :=
  (after releaseOne n n.sessions.heldInCreationOrder,
    (outputs releaseOne n n.sessions.heldInCreationOrder).flatten)

/-! ## Inputs -/

def onPush (n : LogNode) (payload : Bytes) : LogNode × List Output :=
  match n.window.lifecycle with
  | .live => ({ n with window := n.window.push payload }).releaseHeld
  | _ => (n, [.diagnostic ⟨.warn, .pushAfterTerminal⟩])

def onSeal (n : LogNode) : LogNode × List Output :=
  ({ n with window := n.window.seal }).releaseHeld

def onClose (n : LogNode) (error : Option Error) : LogNode × List Output :=
  match n.window.lifecycle with
  | .closed | .failed _ => (n, [])
  | _ =>
      let (n, out) := ({ n with window := n.window.close error }).releaseHeld
      let reason := if error.isSome then StopReason.failed else StopReason.closed
      (n, out ++ [.producerStop reason])

def onEvict (n : LogNode) (upToSeq : Nat) : LogNode × List Output :=
  ({ n with window := n.window.evict upToSeq }, [])

def onEndStream (n : LogNode) (streamId : StreamId) : LogNode × List Output :=
  match n.sessions.remove streamId with
  | (_, none) => (n, [])
  | (sessions, some entry) =>
      let cancel := cancelTimer (entry.held.bind HeldRead.timer)
      let stop := if n.stopWhen = .lastReader ∧ 1 ≤ n.sessions.len ∧ sessions.len = 0 then
          [Output.producerStop .lastReaderGone]
        else []
      ({ n with sessions := sessions }, cancel ++ stop)

def onTimerExpired (n : LogNode) (token : TimerToken) : LogNode × List Output :=
  match n.sessions.findByTimer token with
  | none => (n, [])
  | some id =>
      match n.sessions.clearHeld id with
      | (_, none) => (n, [])
      | (sessions, some held) =>
          ({ n with sessions := sessions },
            [.response ⟨id, [], held.cursor, .wouldBlock, none⟩])

def handle (n : LogNode) : Input → LogNode × List Output
  | .push payload => n.onPush payload
  | .seal => n.onSeal
  | .close error => n.onClose error
  | .read streamId cursor limits timeoutMs => n.onRead streamId cursor limits timeoutMs
  | .endStream streamId => n.onEndStream streamId
  | .timerExpired token => n.onTimerExpired token
  | .evict upToSeq => n.onEvict upToSeq

end LogNode

def run (config : Config) (inputs : List Input) : LogNode :=
  after LogNode.handle (LogNode.new config) inputs

end TautShape.Log
