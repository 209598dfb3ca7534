import TautShape.Held.Streams
/-!
# Messages of the swmr shape

Sequence numbers and epochs are `i64` in the source and `Int` here.  The node itself only
counts them up by one; a client may send any cursor.
-/

namespace TautShape.Swmr

open TautShape.Log (Bytes)

structure SwmrCursor where
  seq : Int
  epoch : Int
deriving DecidableEq, Repr

structure SwmrSnapshot where
  seq : Int
  payload : Bytes
deriving DecidableEq, Repr

structure SwmrDelta where
  baseSeq : Int
  seq : Int
  payload : Bytes
deriving DecidableEq, Repr

inductive SwmrState where
  | data
  | wouldBlock
  | eof
  | closed
  | failed
  | reset
deriving DecidableEq, Repr

inductive SwmrErrorCode where
  | unknownSwmr
  | producerError
  | internal
deriving DecidableEq, Repr

structure SwmrError where
  code : SwmrErrorCode
  message : Option String
deriving DecidableEq, Repr

inductive SwmrResetReason where
  | producerRequested
  | retentionExceeded
  | invalidResumeSeq
deriving DecidableEq, Repr

inductive SwmrSeverity where
  | warn
  | error
deriving DecidableEq, Repr

inductive SwmrDiagCode where
  | pushAfterTerminal
  | deltaBeforeSnapshot
  | writerConflict
  | retentionBoundExceeded
deriving DecidableEq, Repr

structure SwmrDiagnostic where
  severity : SwmrSeverity
  code : SwmrDiagCode
deriving DecidableEq, Repr

structure Request where
  swmrId : String
  cursor : Option SwmrCursor
  timeoutMs : Option Int
deriving DecidableEq, Repr

structure SwmrReadResponse where
  swmrId : String
  streamId : String
  snapshot : Option SwmrSnapshot
  deltas : List SwmrDelta
  nextCursor : Option SwmrCursor
  state : SwmrState
  resetReason : Option SwmrResetReason
  error : Option SwmrError
  resetDetail : Option Bytes
deriving DecidableEq, Repr

/-- The reason that a `reset` carries is not looked at. -/
inductive SwmrInput where
  | snapshotPush (writerId : String) (payload : Bytes)
  | deltaPush (writerId : String) (payload : Bytes)
  | reset (writerId : String) (reason : SwmrResetReason) (detail : Option Bytes)
  | seal
  | close (error : Option SwmrError)
  | read (streamId : String) (request : Request)
  | endStream (streamId : String)
  | timerExpired (token : Int)
deriving DecidableEq, Repr

abbrev SwmrOutput : Type := Held.Output SwmrReadResponse SwmrDiagnostic

end TautShape.Swmr
