import TautShape.Swmr.Types
/-!
# The swmr engine

One writer publishes a snapshot and deltas on top of it; readers come with the cursor
they got last.  A reset starts a new epoch, whose numbers start over.
-/

namespace TautShape.Swmr

open TautShape.Lib TautShape.Held
open TautShape.Log (Bytes StopWhen)

structure SwmrNode where
  stopWhen : StopWhen
  maxDeltas : Option Nat
  snapshot : Option SwmrSnapshot
  deltas : List SwmrDelta
  isSealed : Bool
  isClosed : Bool
  closeError : Option SwmrError
  writerId : Option String
  epoch : Int
  resetReason : Option SwmrResetReason
  resetDetail : Option Bytes
  readers : Streams Request

def response (swmrId streamId : String) (snapshot : Option SwmrSnapshot) (deltas : List SwmrDelta)
    (nextCursor : Option SwmrCursor) (state : SwmrState) (resetReason : Option SwmrResetReason)
    (error : Option SwmrError) (resetDetail : Option Bytes) : SwmrReadResponse :=
  ⟨swmrId, streamId, snapshot, deltas, nextCursor, state, resetReason, error, resetDetail⟩

def diagnostic (code : SwmrDiagCode) : List SwmrOutput :=
  [.diagnostic ⟨if code = .pushAfterTerminal then .warn else .error, code⟩]

namespace SwmrNode

def new (stopWhen : StopWhen) (maxDeltas : Option Nat) : SwmrNode where
  stopWhen := stopWhen
  maxDeltas := maxDeltas
  snapshot := none
  deltas := []
  isSealed := false
  isClosed := false
  closeError := none
  writerId := none
  epoch := 0
  resetReason := none
  resetDetail := none
  readers := Streams.new

def head (n : SwmrNode) : Int :=
  match n.snapshot with
  | none => 0
  | some snapshot => snapshot.seq + n.deltas.length

def terminal (n : SwmrNode) : Bool := n.isSealed || n.isClosed

/-- The first writer that asks is the writer from then on. -/
def checkWriter (n : SwmrNode) (writerId : String) : SwmrNode × Bool :=
  match n.writerId with
  | some bound => (n, bound = writerId)
  | none => ({ n with writerId := some writerId }, true)

def currentCursor (n : SwmrNode) : Option SwmrCursor :=
  n.snapshot.map fun _ => ⟨n.head, n.epoch⟩

/-! ## What a read is answered -/

def caughtUp (n : SwmrNode) (swmrId streamId : String) (nextCursor : Option SwmrCursor)
    (timeoutMs : Option Int) : Option SwmrReadResponse :=
  let answer (state : SwmrState) (error : Option SwmrError) :=
    some (response swmrId streamId none [] nextCursor state none error none)
  if n.isClosed then
    if n.closeError.isSome then answer .failed n.closeError else answer .closed none
  else if n.isSealed then answer .eof none
  else if timeoutMs = some 0 then answer .wouldBlock none
  else none

/-- The whole of what is retained, as a reset gives it. -/
def resetResponse (n : SwmrNode) (swmrId streamId : String) (reason : SwmrResetReason)
    (detail : Option Bytes) : SwmrReadResponse :=
  response swmrId streamId n.snapshot (if n.snapshot.isSome then n.deltas else []) n.currentCursor
    .reset (some reason) none detail

/-- The slice of the last branch is in range, which the source checks by a panic. -/
def resolve (n : SwmrNode) (swmrId streamId : String) (cursor : Option SwmrCursor)
    (timeoutMs : Option Int) : Option SwmrReadResponse :=
  if cursor.any fun cursor => cursor.epoch < n.epoch then
    some (n.resetResponse swmrId streamId (n.resetReason.getD .producerRequested) n.resetDetail)
  else if cursor.any fun cursor => cursor.epoch > n.epoch then
    some (n.resetResponse swmrId streamId .invalidResumeSeq none)
  else
    match n.snapshot with
    | none => n.caughtUp swmrId streamId none timeoutMs
    | some snapshot =>
        match cursor with
        | none =>
            some (response swmrId streamId (some snapshot) n.deltas n.currentCursor .data none none
              none)
        | some cursor =>
            if cursor.seq < snapshot.seq then
              some (n.resetResponse swmrId streamId .retentionExceeded none)
            else if cursor.seq = n.head then
              n.caughtUp swmrId streamId (some ⟨n.head, n.epoch⟩) timeoutMs
            else if cursor.seq > n.head then
              some (n.resetResponse swmrId streamId .invalidResumeSeq none)
            else
              let offset := (cursor.seq - snapshot.seq).toNat
              some (response swmrId streamId none (n.deltas.drop offset) n.currentCursor .data none
                none none)

def answer (n : SwmrNode) (streamId : String) (request : Request) : Option SwmrReadResponse :=
  n.resolve request.swmrId streamId request.cursor request.timeoutMs

def probe (n : SwmrNode) (streamId : String) (request : Request) : Option SwmrReadResponse :=
  n.resolve request.swmrId streamId request.cursor (some 0)

def answerAllHeld (n : SwmrNode) : SwmrNode × List SwmrOutput :=
  let (readers, out) := n.readers.answerAllHeld n.answer
  ({ n with readers := readers }, out)

/-! ## The writer -/

def snapshotPush (n : SwmrNode) (writerId : String) (payload : Bytes) :
    SwmrNode × List SwmrOutput :=
  if n.terminal then (n, diagnostic .pushAfterTerminal)
  else
    let (n, isWriter) := n.checkWriter writerId
    if !isWriter then (n, diagnostic .writerConflict)
    else { n with snapshot := some ⟨n.head, payload⟩, deltas := [] : SwmrNode }.answerAllHeld

def deltaPush (n : SwmrNode) (writerId : String) (payload : Bytes) : SwmrNode × List SwmrOutput :=
  if n.terminal then (n, diagnostic .pushAfterTerminal)
  else
    let (n, isWriter) := n.checkWriter writerId
    if !isWriter then (n, diagnostic .writerConflict)
    else if n.snapshot.isNone then (n, diagnostic .deltaBeforeSnapshot)
    else if n.maxDeltas.any fun limit => n.deltas.length ≥ limit then
      (n, diagnostic .retentionBoundExceeded)
    else
      let seq := n.head + 1
      { n with deltas := n.deltas ++ [⟨seq - 1, seq, payload⟩] : SwmrNode }.answerAllHeld

/-- The body of the sweep of a reset: a reader that has a cursor is told to start over. -/
def resetHeld (reason : SwmrResetReason) (n : SwmrNode) (streamId : String) :
    SwmrNode × List SwmrOutput :=
  match n.readers.heldOf streamId with
  | none => (n, [])
  | some held =>
      let cleared := { n with readers := n.readers.setHeld streamId none }
      match held.request.cursor with
      | none =>
          match n.resolve held.request.swmrId streamId none held.request.timeoutMs with
          | some response =>
              (cleared, cancelTimer held.timerToken ++ [.readResponse response])
          | none => (n, [])
      | some _ =>
          (cleared, cancelTimer held.timerToken ++
            [.readResponse (response held.request.swmrId streamId none [] none .reset (some reason)
              none n.resetDetail)])

def reset (n : SwmrNode) (writerId : String) (detail : Option Bytes) :
    SwmrNode × List SwmrOutput :=
  if n.terminal then (n, diagnostic .pushAfterTerminal)
  else
    let (n, isWriter) := n.checkWriter writerId
    if !isWriter then (n, diagnostic .writerConflict)
    else
      let reason := SwmrResetReason.producerRequested
      let n := { n with
        epoch := n.epoch + 1
        snapshot := none
        deltas := []
        resetReason := some reason
        resetDetail := detail }
      (after (resetHeld reason) n n.readers.order,
        (outputs (resetHeld reason) n n.readers.order).flatten)

def «seal» (n : SwmrNode) : SwmrNode × List SwmrOutput :=
  if n.isSealed then (n, []) else { n with isSealed := true : SwmrNode }.answerAllHeld

def close (n : SwmrNode) (error : Option SwmrError) : SwmrNode × List SwmrOutput :=
  if n.isClosed then (n, [])
  else
    let (n, out) := { n with isClosed := true, closeError := error : SwmrNode }.answerAllHeld
    (n, out ++ [.producerStop (if n.closeError.isSome then .failed else .closed)])

/-! ## Readers -/

def read (n : SwmrNode) (streamId : String) (request : Request) : SwmrNode × List SwmrOutput :=
  let (readers, out) := n.readers.read n.answer Request.timeoutMs streamId request
  ({ n with readers := readers }, out)

def endStream (n : SwmrNode) (streamId : String) : SwmrNode × List SwmrOutput :=
  let (readers, out) := n.readers.endStream n.stopWhen streamId
  ({ n with readers := readers }, out)

def timerExpired (n : SwmrNode) (token : Int) : SwmrNode × List SwmrOutput :=
  let (readers, out) := n.readers.timerExpired n.probe token
  ({ n with readers := readers }, out)

def handle (n : SwmrNode) : SwmrInput → SwmrNode × List SwmrOutput
  | .snapshotPush writerId payload => n.snapshotPush writerId payload
  | .deltaPush writerId payload => n.deltaPush writerId payload
  | .reset writerId _ detail => n.reset writerId detail
  | .seal => n.seal
  | .close error => n.close error
  | .read streamId request => n.read streamId request
  | .endStream streamId => n.endStream streamId
  | .timerExpired token => n.timerExpired token

end SwmrNode

def run (stopWhen : StopWhen) (maxDeltas : Option Nat) (inputs : List SwmrInput) : SwmrNode :=
  after SwmrNode.handle (SwmrNode.new stopWhen maxDeltas) inputs

end TautShape.Swmr
