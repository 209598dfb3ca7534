import TautShape.Lib.OrderedMap
/-!
# Messages of the log shape

The core types of the log engine with its `Input` and `Output` unions.  Sequence
numbers, timer tokens and milliseconds are `u64` in the source and `Nat` here: the
engine only counts them up by one, compares them and subtracts below a checked
bound.  The two limits keep their widths, since every value of theirs is a request
that a client can send.
-/

namespace TautShape.Log

abbrev Bytes : Type := List UInt8

/-- One stream instance, named by its consumer. -/
abbrev StreamId : Type := String

/-- Allocated by the engine, counting from 1. -/
abbrev TimerToken : Type := Nat

/-- Records strictly after `seq` are unseen. -/
structure Cursor where
  seq : Nat
deriving DecidableEq, Repr

/-- The first record has `seq = 1`. -/
def Cursor.start : Cursor := ⟨0⟩

structure Record where
  seq : Nat
  payload : Bytes
deriving DecidableEq, Repr

inductive State where
  | data
  | wouldBlock
  | eof
  | closed
  | failed
  | expired
deriving DecidableEq, Repr

inductive ErrorCode where
  | unknownLog
  | producerError
  | internal
deriving DecidableEq, Repr

structure Error where
  code : ErrorCode
  message : Option String
deriving DecidableEq, Repr

/-- Batch bounds of a read; `none` is unbounded. -/
structure Limits where
  maxRecords : Option UInt32
  maxBytes : Option UInt64
deriving DecidableEq, Repr

inductive StopReason where
  | lastReaderGone
  | closed
  | failed
deriving DecidableEq, Repr

inductive LogSeverity where
  | warn
  | error
deriving DecidableEq, Repr

inductive LogDiagCode where
  | pushAfterTerminal
deriving DecidableEq, Repr

structure LogDiagnostic where
  severity : LogSeverity
  code : LogDiagCode
deriving DecidableEq, Repr

inductive Input where
  | push (payload : Bytes)
  | seal
  | close (error : Option Error)
  | read (streamId : StreamId) (cursor : Option Cursor) (limits : Limits) (timeoutMs : Option Nat)
  | endStream (streamId : StreamId)
  | timerExpired (token : TimerToken)
  | evict (upToSeq : Nat)
deriving DecidableEq, Repr

structure Response where
  streamId : StreamId
  records : List Record
  nextCursor : Cursor
  state : State
  error : Option Error
deriving DecidableEq, Repr

inductive Output where
  | response (response : Response)
  | setTimer (token : TimerToken) (ms : Nat)
  | cancelTimer (token : TimerToken)
  | producerStop (reason : StopReason)
  | diagnostic (diagnostic : LogDiagnostic)
deriving DecidableEq, Repr

end TautShape.Log
