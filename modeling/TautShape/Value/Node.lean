import TautShape.Crdt.Types
import TautShape.Lib.Machine
import TautShape.Lib.MaxBy
/-!
# The value register

A last-writer-wins register over attributed writes.  The node keeps the first write
of each key it was given; a read folds what it keeps to the greatest write.
-/

namespace TautShape.Value

open TautShape.Lib
open TautShape.Crdt (Bytes OpKey)

structure ValueSet where
  origin : String
  seq : Int
  lamport : Int
  prev : Option Bytes
  payload : Bytes
deriving DecidableEq, Repr

structure ValueStamp where
  origin : String
  seq : Int
  lamport : Int
deriving DecidableEq, Repr

inductive ValueState where
  | data
  | empty
deriving DecidableEq, Repr

inductive ValueSeverity where
  | warn
  | error
deriving DecidableEq, Repr

inductive ValueDiagCode where
  | equivocation
deriving DecidableEq, Repr

structure ValueDiagnostic where
  severity : ValueSeverity
  code : ValueDiagCode
deriving DecidableEq, Repr

structure ValueReadRequest where
  valueId : String
  streamId : String
deriving DecidableEq, Repr

structure ValueReadResponse where
  valueId : String
  streamId : String
  value : Option Bytes
  winner : Option ValueStamp
  state : ValueState
deriving DecidableEq, Repr

inductive ValueInput where
  | set (op : ValueSet)
  | read (request : ValueReadRequest)
deriving DecidableEq, Repr

inductive ValueOutput where
  | readResponse (response : ValueReadResponse)
  | diagnostic (diagnostic : ValueDiagnostic)
deriving DecidableEq, Repr

def key (op : ValueSet) : OpKey := ⟨op.origin, op.seq⟩

/-- The comparison of `read`: lamport, then origin, then sequence number. -/
def winnerOrder (left right : ValueSet) : Ordering :=
  (compare left.lamport right.lamport).then
    ((compare left.origin right.origin).then (compare left.seq right.seq))

structure ValueNode where
  ops : BTreeMap OpKey ValueSet

namespace ValueNode

def new : ValueNode := ⟨∅⟩

def len (n : ValueNode) : Nat := n.ops.size

def isEmpty (n : ValueNode) : Bool := n.ops.isEmpty

def set (n : ValueNode) (op : ValueSet) : ValueNode × List ValueOutput :=
  match n.ops[key op]? with
  | some prior =>
      if prior.payload ≠ op.payload ∨ prior.prev ≠ op.prev then
        (n, [.diagnostic ⟨.error, .equivocation⟩])
      else
        (n, [])
  | none => ({ ops := n.ops.insert (key op) op }, [])

def winner (n : ValueNode) : Option ValueSet := maxBy winnerOrder (n.ops.toList.map Prod.snd)

def read (n : ValueNode) (request : ValueReadRequest) : ValueReadResponse :=
  match n.winner with
  | none => ⟨request.valueId, request.streamId, none, none, .empty⟩
  | some op =>
      ⟨request.valueId, request.streamId, some op.payload, some ⟨op.origin, op.seq, op.lamport⟩,
        .data⟩

def handle (n : ValueNode) : ValueInput → ValueNode × List ValueOutput
  | .set op => n.set op
  | .read request => (n, [.readResponse (n.read request)])

end ValueNode

def deliver (ops : List ValueSet) : ValueNode :=
  after ValueNode.handle ValueNode.new (ops.map .set)

def reported (ops : List ValueSet) : List ValueOutput :=
  (outputs ValueNode.handle ValueNode.new (ops.map .set)).flatten

/-! ## The comparison -/

theorem winnerOrder_eq : winnerOrder = compareLex (compareOn ValueSet.lamport)
    (compareLex (compareOn ValueSet.origin) (compareOn ValueSet.seq)) := rfl

instance : Std.TransCmp winnerOrder := by
  rw [winnerOrder_eq]
  infer_instance

theorem winnerOrder_eq_eq {a b : ValueSet} (h : winnerOrder a b = .eq) :
    key a = key b ∧ a.lamport = b.lamport := by
  rw [winnerOrder_eq] at h
  obtain ⟨hlamport, hrest⟩ := compareLex_eq_eq.mp h
  obtain ⟨horigin, hseq⟩ := compareLex_eq_eq.mp hrest
  simp only [compareOn, Std.LawfulEqCmp.compare_eq_iff_eq] at hlamport horigin hseq
  exact ⟨by rw [key, key, horigin, hseq], hlamport⟩

/-! ## What the node keeps -/

theorem deliver_concat (front : List ValueSet) (op : ValueSet) :
    deliver (front ++ [op]) = ((deliver front).set op).1 := by
  rw [deliver, List.map_append, after_append]
  rfl

theorem reported_concat (front : List ValueSet) (op : ValueSet) :
    reported (front ++ [op]) = reported front ++ ((deliver front).set op).2 := by
  rw [reported, List.map_append, outputs_append, List.flatten_append]
  simp [outputs, reported, deliver, ValueNode.handle]

/-- The first write of each key, in whatever order the rest comes. -/
theorem deliver_getElem? (ops : List ValueSet) (k : OpKey) :
    (deliver ops).ops[k]? = ops.find? fun op => key op = k := by
  induction ops using List.reverseRecOn with
  | nil => simp [deliver, ValueNode.new]
  | append_singleton front op ih =>
      rw [deliver_concat, List.find?_append, ← ih, ValueNode.set]
      by_cases hkey : key op = k
      · subst hkey
        cases hprior : (deliver front).ops[key op]? with
        | none => simp
        | some prior =>
            simp only
            split <;> simp [hprior]
      · have hsingle : [op].find? (fun op => decide (key op = k)) = none := by simp [hkey]
        rw [hsingle, Option.or_none]
        cases hprior : (deliver front).ops[key op]? with
        | none => simp [getElem?_insert, hkey]
        | some prior =>
            simp only
            split <;> rfl

end TautShape.Value
