import TautShape.Held.Streams
/-!
# Messages of the atom shape

Versions and milliseconds are `i64` in the source and `Int` here.  The node counts its
version up from zero; a client may send any.
-/

namespace TautShape.Atom

open TautShape.Log (Bytes)

structure AtomVersion where
  version : Int
deriving DecidableEq, Repr

structure AtomValue where
  version : Int
  payload : Bytes
deriving DecidableEq, Repr

inductive AtomState where
  | data
  | wouldBlock
  | eof
  | closed
  | failed
deriving DecidableEq, Repr

inductive AtomErrorCode where
  | unknownAtom
  | producerError
  | internal
deriving DecidableEq, Repr

structure AtomError where
  code : AtomErrorCode
  message : Option String
deriving DecidableEq, Repr

inductive AtomSeverity where
  | warn
  | error
deriving DecidableEq, Repr

inductive AtomDiagCode where
  | replaceAfterTerminal
deriving DecidableEq, Repr

structure AtomDiagnostic where
  severity : AtomSeverity
  code : AtomDiagCode
deriving DecidableEq, Repr

/-- What a read asks, beside the stream it is for. -/
structure Request where
  atomId : String
  version : Option AtomVersion
  timeoutMs : Option Int
deriving DecidableEq, Repr

/-- The version that the reader has; without one it has none, like a fresh node. -/
def Request.known (request : Request) : Int := (request.version.map AtomVersion.version).getD 0

structure AtomReadResponse where
  atomId : String
  streamId : String
  value : Option AtomValue
  nextVersion : AtomVersion
  state : AtomState
  error : Option AtomError
deriving DecidableEq, Repr

inductive AtomInput where
  | replace (payload : Bytes)
  | seal
  | close (error : Option AtomError)
  | read (streamId : String) (request : Request)
  | endStream (streamId : String)
  | timerExpired (token : Int)
deriving DecidableEq, Repr

abbrev AtomOutput : Type := Held.Output AtomReadResponse AtomDiagnostic

end TautShape.Atom
