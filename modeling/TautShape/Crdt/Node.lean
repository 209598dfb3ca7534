import TautShape.Crdt.Clock
import TautShape.Lib.Machine
/-!
# The causal replicated-operation engine

`CrdtNode` and its inputs, function by function.  An operation waits in `ops`
until its predecessor and its dependencies are in the clock; `drain` then moves
its key to `integrated`, which may release others.
-/

namespace TautShape.Crdt

open TautShape.Lib

abbrev OpMap : Type := BTreeMap OpKey CrdtOp

structure CrdtNode where
  maxPending : Nat
  clock : ClockMap
  floor : ClockMap
  bootstrap : Option CrdtBootstrap
  ops : OpMap
  integrated : BTreeSet OpKey
  equivocated : BTreeSet OpKey
  sealed : Bool
  closed : Bool
  error : Option CrdtError

namespace CrdtNode

def new (maxPending : Nat) : CrdtNode where
  maxPending := maxPending
  clock := ∅
  floor := ∅
  bootstrap := none
  ops := ∅
  integrated := ∅
  equivocated := ∅
  sealed := false
  closed := false
  error := none

/-- The accessor `clock()`. -/
def clockMessage (n : CrdtNode) : CrdtClock := clockValue n.clock

def operations (n : CrdtNode) : List CrdtOp :=
  n.integrated.toList.filterMap fun k => n.ops[k]?

def equivocations (n : CrdtNode) : List OpKey := n.equivocated.toList

def diagnostic (code : CrdtDiagCode) (op : Option CrdtOp) : CrdtOutput :=
  .diagnostic {
    severity := if code = .applyAfterTerminal then .warn else .error
    code := code
    origin := op.map CrdtOp.origin
    seq := op.map CrdtOp.seq }

def valid (op : CrdtOp) : Bool :=
  match clockMap op.deps with
  | none => false
  | some deps =>
      !op.origin.isEmpty && decide (0 < op.seq) && decide (deps.getD op.origin 0 < op.seq)

/-! ## Integration -/

/-- The parse is unwrapped with `expect` in the source, as in `variant`. -/
def ready (n : CrdtNode) (op : CrdtOp) : Bool :=
  if n.clock.getD op.origin 0 + 1 < op.seq then
    false
  else
    ((clockMap op.deps).getD ∅).toList.all fun p => decide (p.2 ≤ n.clock.getD p.1 0)

def readyKeys (n : CrdtNode) : List OpKey :=
  (n.ops.toList.filter fun p => !n.integrated.contains p.1 && n.ready p.2).map Prod.fst

/-- The body of the inner loop.  The keys come from `ops`, so the lookup, an index
in the source, finds the operation. -/
def integrate (n : CrdtNode) (k : OpKey) : CrdtNode :=
  match n.ops[k]? with
  | none => n
  | some op => { n with
      integrated := n.integrated.insert k
      clock := n.clock.alter op.origin fun
        | some seq => some (max seq op.seq)
        | none => some op.seq }

def drainLoop : Nat → CrdtNode → CrdtNode
  | 0, n => n
  | fuel + 1, n =>
      if n.readyKeys.isEmpty then n else drainLoop fuel (n.readyKeys.foldl integrate n)

/-- Each pass integrates a stored key, so `ops.size` passes exhaust the loop and one
more finds nothing (`readyKeys_drain`). -/
def drain (n : CrdtNode) : CrdtNode := drainLoop (n.ops.size + 1) n

/-! ## Inputs -/

def apply (n : CrdtNode) (op : CrdtOp) : CrdtNode × List CrdtOutput :=
  if n.sealed || n.closed then
    (n, [diagnostic .applyAfterTerminal (some op)])
  else if !valid op then
    (n, [diagnostic .invalidOperation (some op)])
  else if op.seq ≤ n.floor.getD op.origin 0 then
    (n, [])
  else
    match n.ops[key op]? with
    | some previous =>
        if previous = op then
          (n, [])
        else
          let outputs :=
            if n.equivocated.contains (key op) then []
            else [diagnostic .equivocation (some op)]
          let ops :=
            if (compare (variant op) (variant previous)).isLT then n.ops.insert (key op) op
            else n.ops
          ({ n with equivocated := n.equivocated.insert (key op), ops := ops }.drain, outputs)
    | none =>
        if !n.ready op && decide (n.maxPending ≤ n.ops.size - n.integrated.size) then
          (n, [diagnostic .pendingBoundExceeded (some op)])
        else
          ({ n with ops := n.ops.insert (key op) op }.drain, [])

def installBootstrap (n : CrdtNode) (bootstrap : CrdtBootstrap) : CrdtNode × List CrdtOutput :=
  if n.sealed || n.closed then
    (n, [diagnostic .applyAfterTerminal none])
  else
    match clockMap bootstrap.clock with
    | none => (n, [diagnostic .invalidOperation none])
    | some parsed =>
        if n.bootstrap = some bootstrap then
          (n, [])
        else if n.bootstrap.isSome || !n.ops.isEmpty then
          (n, [diagnostic .bootstrapConflict none])
        else
          ({ n with floor := parsed, clock := parsed, bootstrap := some bootstrap }, [])

/-! ## Reads -/

def response (n : CrdtNode) (request : CrdtReadRequest) (state : CrdtState)
    (bootstrap : Option CrdtBootstrap) (ops : List CrdtOp) (error : Option CrdtError) :
    CrdtReadResponse where
  crdtId := request.crdtId
  streamId := request.streamId
  bootstrap := bootstrap
  ops := ops
  nextCursor := n.clockMessage
  state := state
  error := error

/-- The cursor of a request as a map, `none` when its entries do not parse. -/
def requestCursor (request : CrdtReadRequest) : Option ClockMap :=
  match request.cursor with
  | none => some ∅
  | some value => clockMap value

def belowFloor (n : CrdtNode) (cursor : ClockMap) : Bool :=
  n.floor.toList.any fun p => decide (cursor.getD p.1 0 < p.2)

def opsAbove (n : CrdtNode) (base : ClockMap) : List CrdtOp :=
  (n.integrated.toList.filter fun k => decide (base.getD k.origin 0 < k.seq)).filterMap
    fun k => n.ops[k]?

/-- The answer of a read that has neither a bootstrap nor an operation to hand over. -/
def drainedResponse (n : CrdtNode) (request : CrdtReadRequest) : CrdtReadResponse :=
  if n.closed then
    n.response request (if n.error.isSome then .failed else .closed) none [] n.error
  else if n.sealed then
    n.response request .eof none [] none
  else
    n.response request .empty none [] none

def read (n : CrdtNode) (request : CrdtReadRequest) : CrdtReadResponse :=
  match requestCursor request with
  | none => n.response request .invalidCursor none [] none
  | some cursor =>
      if cursor.toList.any fun p => decide (n.clock.getD p.1 0 < p.2) then
        n.response request .invalidCursor none [] none
      else
        let (bootstrap, base, state) :=
          if request.cursor.isSome && n.belowFloor cursor then
            (n.bootstrap, n.floor, CrdtState.bootstrapRequired)
          else
            (if request.cursor.isNone then n.bootstrap else none, cursor, CrdtState.data)
        let ops := n.opsAbove base
        if bootstrap.isSome || !ops.isEmpty then
          n.response request state bootstrap ops none
        else
          n.drainedResponse request

def handle (n : CrdtNode) : CrdtInput → CrdtNode × List CrdtOutput
  | .apply op => n.apply op
  | .installBootstrap bootstrap => n.installBootstrap bootstrap
  | .seal => (if n.closed then n else { n with sealed := true }, [])
  | .close error => (if n.closed then n else { n with closed := true, error := error }, [])
  | .read request => (n, [.readResponse (n.read request)])

@[simp] theorem handle_apply (n : CrdtNode) (op : CrdtOp) :
    n.handle (.apply op) = n.apply op := rfl

@[simp] theorem handle_installBootstrap (n : CrdtNode) (b : CrdtBootstrap) :
    n.handle (.installBootstrap b) = n.installBootstrap b := rfl

end CrdtNode

def run (maxPending : Nat) (inputs : List CrdtInput) : CrdtNode :=
  after CrdtNode.handle (CrdtNode.new maxPending) inputs

def deliveries (ops : List CrdtOp) : List CrdtInput := ops.map .apply

def bootstrapInputs (bootstrap : Option CrdtBootstrap) : List CrdtInput :=
  bootstrap.toList.map .installBootstrap

def emitted (maxPending : Nat) (inputs : List CrdtInput) : List CrdtOutput :=
  (outputs CrdtNode.handle (CrdtNode.new maxPending) inputs).flatten

end TautShape.Crdt
