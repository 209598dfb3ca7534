import TautShape.Lib.OrderedMap
/-!
# Messages of the CRDT shape

The `shape_crdt` vocabulary the engine reads and writes.  A wire `i64` is an
`Int` here: the engine only compares sequence numbers and adds one to a clock
value, and it does so only below the sequence number of an operation
(`CrdtNode.Wf.clock_lt`).
-/

namespace TautShape.Crdt

open TautShape.Lib

abbrev Bytes : Type := List UInt8

/-! ## Keys -/

/-- The pair `(origin, seq)`, ordered lexicographically. -/
structure OpKey where
  origin : String
  seq : Int
deriving DecidableEq, Repr

instance : Ord OpKey := ⟨compareLex (compareOn OpKey.origin) (compareOn OpKey.seq)⟩

instance : Std.TransOrd OpKey :=
  inferInstanceAs (Std.TransCmp (compareLex (compareOn OpKey.origin) (compareOn OpKey.seq)))

instance : Std.LawfulEqOrd OpKey where
  eq_of_compare {a b} h := by
    obtain ⟨horigin, hseq⟩ := compareLex_eq_eq.mp h
    cases a
    cases b
    simp_all [compareOn]

/-! ## Clocks and operations -/

structure CrdtClockEntry where
  origin : String
  seq : Int
deriving DecidableEq, Repr

structure CrdtClock where
  entries : List CrdtClockEntry
deriving DecidableEq, Repr

structure CrdtOp where
  origin : String
  seq : Int
  deps : CrdtClock
  payload : Bytes
deriving DecidableEq, Repr

structure CrdtBootstrap where
  clock : CrdtClock
  state : Bytes
deriving DecidableEq, Repr

inductive CrdtErrorCode where
  | unknownCrdt
  | producerError
  | internal
deriving DecidableEq, Repr

structure CrdtError where
  code : CrdtErrorCode
  message : Option String
deriving DecidableEq, Repr

/-! ## Requests and answers -/

structure CrdtReadRequest where
  crdtId : String
  streamId : String
  cursor : Option CrdtClock
deriving DecidableEq, Repr

inductive CrdtState where
  | data
  | empty
  | eof
  | closed
  | failed
  | bootstrapRequired
  | invalidCursor
deriving DecidableEq, Repr

structure CrdtReadResponse where
  crdtId : String
  streamId : String
  bootstrap : Option CrdtBootstrap
  ops : List CrdtOp
  nextCursor : CrdtClock
  state : CrdtState
  error : Option CrdtError
deriving DecidableEq, Repr

inductive CrdtSeverity where
  | warn
  | error
deriving DecidableEq, Repr

inductive CrdtDiagCode where
  | applyAfterTerminal
  | invalidOperation
  | equivocation
  | bootstrapConflict
  | pendingBoundExceeded
deriving DecidableEq, Repr

structure CrdtDiagnostic where
  severity : CrdtSeverity
  code : CrdtDiagCode
  origin : Option String
  seq : Option Int
deriving DecidableEq, Repr

inductive CrdtInput where
  | apply (op : CrdtOp)
  | installBootstrap (bootstrap : CrdtBootstrap)
  | seal
  | close (error : Option CrdtError)
  | read (request : CrdtReadRequest)
deriving DecidableEq, Repr

inductive CrdtOutput where
  | readResponse (response : CrdtReadResponse)
  | diagnostic (diagnostic : CrdtDiagnostic)
deriving DecidableEq, Repr

end TautShape.Crdt
