import TautShape.Log.Types
/-!
# Messages on the wire

The generated messages of the log shape, how they are put into a CBOR body and how those
that a client sends are read from one.  The body, its constructors and its accessors are
not part of this repository, so that they are parameters here.
-/

namespace TautShape.Tool

open TautShape.Log (Bytes)

/-- The accessors of a `Cbor` body, with the one `DecodeError` that the generated code makes
itself and the text of each. -/
structure CborReader (β ε : Type) where
  tryGet : β → Nat → Except ε β
  tryInt : β → Except ε Int64
  tryText : β → Except ε String
  tryBytes : β → Except ε Bytes
  isNull : β → Bool
  unknownEnum : String → Int64 → ε
  display : ε → String

structure CborWriter (β : Type) where
  map : List (Nat × β) → β
  array : List β → β
  int : Int64 → β
  text : String → β
  bytes : Bytes → β
  null : β

variable {α β ε : Type}

def CborWriter.optional (w : CborWriter β) (toCbor : α → β) : Option α → β
  | some v => toCbor v
  | none => w.null

def CborReader.optional (c : CborReader β ε) (fromCbor : β → Except ε α) (v : β) :
    Except ε (Option α) := do
  if c.isNull v then
    return none
  else
    return some (← fromCbor v)

inductive LogMsgType where
  | push
  | seal
  | close
  | read
  | endStream
  | timerExpired
  | evict
  | readResponse
  | setTimer
  | cancelTimer
  | producerStop
  | diagnostic
deriving DecidableEq, Repr

namespace LogMsgType

def wire : LogMsgType → Nat
  | .push => 0
  | .seal => 1
  | .close => 2
  | .read => 3
  | .endStream => 4
  | .timerExpired => 5
  | .evict => 6
  | .readResponse => 7
  | .setTimer => 8
  | .cancelTimer => 9
  | .producerStop => 10
  | .diagnostic => 11

/-- `None` where the source makes an error that its one caller drops. -/
def fromWire : Nat → Option LogMsgType
  | 0 => some .push
  | 1 => some .seal
  | 2 => some .close
  | 3 => some .read
  | 4 => some .endStream
  | 5 => some .timerExpired
  | 6 => some .evict
  | 7 => some .readResponse
  | 8 => some .setTimer
  | 9 => some .cancelTimer
  | 10 => some .producerStop
  | 11 => some .diagnostic
  | _ => none

/-- The derived `Debug` text. -/
def debug : LogMsgType → String
  | .push => "Push"
  | .seal => "Seal"
  | .close => "Close"
  | .read => "Read"
  | .endStream => "EndStream"
  | .timerExpired => "TimerExpired"
  | .evict => "Evict"
  | .readResponse => "ReadResponse"
  | .setTimer => "SetTimer"
  | .cancelTimer => "CancelTimer"
  | .producerStop => "ProducerStop"
  | .diagnostic => "Diagnostic"

end LogMsgType

inductive LogErrorCode where
  | unknownLog
  | producerError
  | internal
deriving DecidableEq, Repr

def LogErrorCode.wire : LogErrorCode → Int64
  | .unknownLog => 0
  | .producerError => 1
  | .internal => 2

def LogErrorCode.fromWire (c : CborReader β ε) (v : Int64) : Except ε LogErrorCode :=
  if v = 0 then return .unknownLog
  else if v = 1 then return .producerError
  else if v = 2 then return .internal
  else throw (c.unknownEnum "LogErrorCode" v)

structure LogCursor where
  seq : Int64
deriving DecidableEq

def LogCursor.fromCbor (c : CborReader β ε) (body : β) : Except ε LogCursor := do
  return { seq := ← c.tryInt (← c.tryGet body 1) }

def LogCursor.toCbor (w : CborWriter β) (m : LogCursor) : β := w.map [(1, w.int m.seq)]

structure LogError where
  code : LogErrorCode
  message : Option String
deriving DecidableEq

def LogError.fromCbor (c : CborReader β ε) (body : β) : Except ε LogError := do
  return {
    code := ← LogErrorCode.fromWire c (← c.tryInt (← c.tryGet body 1))
    message := ← c.optional c.tryText (← c.tryGet body 2) }

def LogError.toCbor (w : CborWriter β) (m : LogError) : β :=
  w.map [(1, w.int m.code.wire), (2, w.optional w.text m.message)]

structure LogPush where
  payload : Bytes
deriving DecidableEq

def LogPush.fromCbor (c : CborReader β ε) (body : β) : Except ε LogPush := do
  return { payload := ← c.tryBytes (← c.tryGet body 1) }

def LogPush.toCbor (w : CborWriter β) (m : LogPush) : β := w.map [(1, w.bytes m.payload)]

/-- `LogSeal {}.to_cbor()`; its body is never read. -/
def LogSeal.toCbor (w : CborWriter β) : β := w.map []

structure LogClose where
  error : Option LogError
deriving DecidableEq

def LogClose.fromCbor (c : CborReader β ε) (body : β) : Except ε LogClose := do
  return { error := ← c.optional (LogError.fromCbor c) (← c.tryGet body 1) }

def LogClose.toCbor (w : CborWriter β) (m : LogClose) : β :=
  w.map [(1, w.optional (LogError.toCbor w) m.error)]

structure LogReadRequest where
  logId : String
  streamId : String
  cursor : Option LogCursor
  maxRecords : Option Int64
  maxBytes : Option Int64
  timeoutMs : Option Int64
deriving DecidableEq

def LogReadRequest.fromCbor (c : CborReader β ε) (body : β) : Except ε LogReadRequest := do
  return {
    logId := ← c.tryText (← c.tryGet body 1)
    streamId := ← c.tryText (← c.tryGet body 2)
    cursor := ← c.optional (LogCursor.fromCbor c) (← c.tryGet body 3)
    maxRecords := ← c.optional c.tryInt (← c.tryGet body 4)
    maxBytes := ← c.optional c.tryInt (← c.tryGet body 5)
    timeoutMs := ← c.optional c.tryInt (← c.tryGet body 6) }

def LogReadRequest.toCbor (w : CborWriter β) (m : LogReadRequest) : β :=
  w.map [(1, w.text m.logId), (2, w.text m.streamId),
    (3, w.optional (LogCursor.toCbor w) m.cursor), (4, w.optional w.int m.maxRecords),
    (5, w.optional w.int m.maxBytes), (6, w.optional w.int m.timeoutMs)]

structure LogEndStream where
  logId : String
  streamId : String
deriving DecidableEq

def LogEndStream.fromCbor (c : CborReader β ε) (body : β) : Except ε LogEndStream := do
  return {
    logId := ← c.tryText (← c.tryGet body 1)
    streamId := ← c.tryText (← c.tryGet body 2) }

def LogEndStream.toCbor (w : CborWriter β) (m : LogEndStream) : β :=
  w.map [(1, w.text m.logId), (2, w.text m.streamId)]

structure LogTimerExpired where
  token : Int64
deriving DecidableEq

def LogTimerExpired.fromCbor (c : CborReader β ε) (body : β) : Except ε LogTimerExpired := do
  return { token := ← c.tryInt (← c.tryGet body 1) }

def LogTimerExpired.toCbor (w : CborWriter β) (m : LogTimerExpired) : β :=
  w.map [(1, w.int m.token)]

structure LogEvict where
  upToSeq : Int64
deriving DecidableEq

def LogEvict.fromCbor (c : CborReader β ε) (body : β) : Except ε LogEvict := do
  return { upToSeq := ← c.tryInt (← c.tryGet body 1) }

def LogEvict.toCbor (w : CborWriter β) (m : LogEvict) : β := w.map [(1, w.int m.upToSeq)]

/-! ## Messages that only the node sends -/

inductive LogState where
  | data
  | wouldBlock
  | eof
  | closed
  | failed
  | expired
deriving DecidableEq, Repr

def LogState.wire : LogState → Int64
  | .data => 0
  | .wouldBlock => 1
  | .eof => 2
  | .closed => 3
  | .failed => 4
  | .expired => 5

inductive LogStopReason where
  | lastReaderGone
  | closed
  | failed
deriving DecidableEq, Repr

def LogStopReason.wire : LogStopReason → Int64
  | .lastReaderGone => 0
  | .closed => 1
  | .failed => 2

structure LogRecord where
  seq : Int64
  payload : Bytes
deriving DecidableEq

def LogRecord.toCbor (w : CborWriter β) (m : LogRecord) : β :=
  w.map [(1, w.int m.seq), (2, w.bytes m.payload)]

structure LogReadResponse where
  logId : String
  streamId : String
  records : List LogRecord
  nextCursor : LogCursor
  state : LogState
  error : Option LogError
deriving DecidableEq

def LogReadResponse.toCbor (w : CborWriter β) (m : LogReadResponse) : β :=
  w.map [(1, w.text m.logId), (2, w.text m.streamId),
    (3, w.array (m.records.map (LogRecord.toCbor w))), (4, m.nextCursor.toCbor w),
    (5, w.int m.state.wire), (6, w.optional (LogError.toCbor w) m.error)]

structure LogSetTimer where
  token : Int64
  ms : Int64
deriving DecidableEq

def LogSetTimer.toCbor (w : CborWriter β) (m : LogSetTimer) : β :=
  w.map [(1, w.int m.token), (2, w.int m.ms)]

structure LogCancelTimer where
  token : Int64
deriving DecidableEq

def LogCancelTimer.toCbor (w : CborWriter β) (m : LogCancelTimer) : β :=
  w.map [(1, w.int m.token)]

structure LogProducerStop where
  reason : LogStopReason
deriving DecidableEq

def LogProducerStop.toCbor (w : CborWriter β) (m : LogProducerStop) : β :=
  w.map [(1, w.int m.reason.wire)]

def severityWire : Log.LogSeverity → Int64
  | .warn => 0
  | .error => 1

def diagCodeWire : Log.LogDiagCode → Int64
  | .pushAfterTerminal => 0

/-- The engine's diagnostic is the generated message itself. -/
def diagnosticToCbor (w : CborWriter β) (m : Log.LogDiagnostic) : β :=
  w.map [(1, w.int (severityWire m.severity)), (2, w.int (diagCodeWire m.code))]

end TautShape.Tool
