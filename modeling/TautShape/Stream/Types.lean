import TautShape.Held.Streams
/-!
# Messages of the stream shape

Sequence numbers, limits and milliseconds are `i64` in the source and `Int` here; a
client may send any limit.
-/

namespace TautShape.Stream

open TautShape.Log (Bytes)

structure StreamPosition where
  seq : Int
deriving DecidableEq, Repr

structure StreamRecord where
  seq : Int
  payload : Bytes
deriving DecidableEq, Repr

inductive StreamState where
  | data
  | wouldBlock
  | eof
  | closed
  | failed
  | dropped
deriving DecidableEq, Repr

inductive StreamErrorCode where
  | unknownStream
  | producerError
  | internal
  | slowConsumer
deriving DecidableEq, Repr

structure StreamError where
  code : StreamErrorCode
  message : Option String
deriving DecidableEq, Repr

inductive StreamSeverity where
  | warn
  | error
deriving DecidableEq, Repr

inductive StreamDiagCode where
  | pushAfterTerminal
deriving DecidableEq, Repr

structure StreamDiagnostic where
  severity : StreamSeverity
  code : StreamDiagCode
deriving DecidableEq, Repr

structure Request where
  maxRecords : Option Int
  maxBytes : Option Int
  timeoutMs : Option Int
deriving DecidableEq, Repr

structure StreamReadResponse where
  streamId : String
  records : List StreamRecord
  nextPosition : StreamPosition
  state : StreamState
  error : Option StreamError
deriving DecidableEq, Repr

inductive StreamInput where
  | push (payload : Bytes)
  | seal
  | close (error : Option StreamError)
  | read (streamId : String) (request : Request)
  | endStream (streamId : String)
  | timerExpired (token : Int)
deriving DecidableEq, Repr

abbrev StreamOutput : Type := Held.Output StreamReadResponse StreamDiagnostic

end TautShape.Stream
