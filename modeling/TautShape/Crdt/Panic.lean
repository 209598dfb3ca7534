import TautShape.Crdt.Invariant
/-!
# Where the engine could panic

The same functions with every `expect`, unsigned subtraction and map index of the
source made explicit: a failing one ends the call with a `Panic`.  On a node that
satisfies the invariant they never fail and agree with the plain functions.
-/

namespace TautShape.Crdt

open TautShape.Lib

inductive Panic where
  | expect (message : String)
  | subtractOverflow
  | indexMissing
deriving DecidableEq, Repr

def expectClock (clock : CrdtClock) : Except Panic ClockMap :=
  match clockMap clock with
  | some m => .ok m
  | none => .error (.expect "validated operation")

def variantChecked (op : CrdtOp) : Except Panic Variant := do
  let deps ← expectClock op.deps
  return ⟨deps.toList.map fun p => ⟨p.1, p.2⟩, op.payload⟩

/-- `usize` subtraction, which panics below zero. -/
def subChecked (a b : Nat) : Except Panic Nat :=
  if a < b then .error .subtractOverflow else .ok (a - b)

namespace CrdtNode

def readyChecked (n : CrdtNode) (op : CrdtOp) : Except Panic Bool := do
  if n.clock.getD op.origin 0 + 1 < op.seq then
    return false
  let deps ← expectClock op.deps
  return deps.toList.all fun p => decide (p.2 ≤ n.clock.getD p.1 0)

def collectReady (n : CrdtNode) : List (OpKey × CrdtOp) → Except Panic (List OpKey)
  | [] => return []
  | p :: rest => do
      let isReady ← if n.integrated.contains p.1 then pure false else n.readyChecked p.2
      let later ← n.collectReady rest
      return if isReady then p.1 :: later else later

def integrateChecked (n : CrdtNode) (k : OpKey) : Except Panic CrdtNode :=
  if n.ops.contains k then .ok (n.integrate k) else .error .indexMissing

def drainLoopChecked : Nat → CrdtNode → Except Panic CrdtNode
  | 0, n => return n
  | fuel + 1, n => do
      let ready ← n.collectReady n.ops.toList
      if ready.isEmpty then
        return n
      drainLoopChecked fuel (← ready.foldlM integrateChecked n)

def drainChecked (n : CrdtNode) : Except Panic CrdtNode := drainLoopChecked (n.ops.size + 1) n

/-- The test in front of the buffer, `!ready && len - len >= max_pending`. -/
def bufferFullChecked (n : CrdtNode) (op : CrdtOp) : Except Panic Bool := do
  if ← n.readyChecked op then
    return false
  return decide (n.maxPending ≤ (← subChecked n.ops.size n.integrated.size))

def applyChecked (n : CrdtNode) (op : CrdtOp) : Except Panic (CrdtNode × List CrdtOutput) :=
  if n.sealed || n.closed then
    return (n, [diagnostic .applyAfterTerminal (some op)])
  else if !valid op then
    return (n, [diagnostic .invalidOperation (some op)])
  else if op.seq ≤ n.floor.getD op.origin 0 then
    return (n, [])
  else
    match n.ops[key op]? with
    | some previous =>
        if previous = op then
          return (n, [])
        else do
          let outputs :=
            if n.equivocated.contains (key op) then []
            else [diagnostic .equivocation (some op)]
          let smaller := (compare (← variantChecked op) (← variantChecked previous)).isLT
          let ops := if smaller then n.ops.insert (key op) op else n.ops
          let drained ← drainChecked
            { n with equivocated := n.equivocated.insert (key op), ops := ops }
          return (drained, outputs)
    | none => do
        if ← n.bufferFullChecked op then
          return (n, [diagnostic .pendingBoundExceeded (some op)])
        let drained ← drainChecked { n with ops := n.ops.insert (key op) op }
        return (drained, [])

def handleChecked (n : CrdtNode) : CrdtInput → Except Panic (CrdtNode × List CrdtOutput)
  | .apply op => n.applyChecked op
  | input => return n.handle input

end CrdtNode

theorem expectClock_eq {clock : CrdtClock} {m : ClockMap} (h : clockMap clock = some m) :
    expectClock clock = .ok m := by
  rw [expectClock, h]

theorem variantChecked_eq {op : CrdtOp} (hvalid : CrdtNode.valid op = true) :
    variantChecked op = .ok (variant op) := by
  obtain ⟨deps, hdeps, -⟩ := valid_iff.mp hvalid
  rw [variantChecked, expectClock_eq hdeps, variant, hdeps]
  rfl

namespace CrdtNode

theorem readyChecked_eq (n : CrdtNode) {op : CrdtOp} (hvalid : CrdtNode.valid op = true) :
    n.readyChecked op = .ok (n.ready op) := by
  obtain ⟨deps, hdeps, -⟩ := valid_iff.mp hvalid
  rw [readyChecked, ready, expectClock_eq hdeps, hdeps]
  split <;> rfl

theorem collectReady_eq {n : CrdtNode} {l : List (OpKey × CrdtOp)}
    (hvalid : ∀ p ∈ l, CrdtNode.valid p.2 = true) :
    n.collectReady l =
      .ok ((l.filter fun p => !n.integrated.contains p.1 && n.ready p.2).map Prod.fst) := by
  induction l with
  | nil => rfl
  | cons p rest ih =>
      rw [collectReady, ih fun q hq => hvalid q (List.mem_cons_of_mem p hq),
        readyChecked_eq n (hvalid p (by simp))]
      cases hintegrated : n.integrated.contains p.1 <;> cases hready : n.ready p.2 <;>
        simp [hintegrated, hready] <;> rfl

theorem collectReady_toList {n : CrdtNode} (hn : Wf n) :
    n.collectReady n.ops.toList = .ok n.readyKeys := by
  refine collectReady_eq fun p hp => ?_
  exact hn.all_valid p.1 p.2 (Std.ExtTreeMap.mem_toList_iff_getElem?_eq_some.mp hp)

theorem foldlM_integrateChecked {keys : List OpKey} {n : CrdtNode}
    (hkeys : ∀ k ∈ keys, k ∈ n.ops) :
    keys.foldlM integrateChecked n = .ok (keys.foldl integrate n) := by
  induction keys generalizing n with
  | nil => rfl
  | cons k rest ih =>
      have hk : n.ops.contains k = true := hkeys k (by simp)
      have hstep : n.integrateChecked k = .ok (n.integrate k) := by
        rw [integrateChecked, if_pos hk]
      have hops : (n.integrate k).ops = n.ops := by
        unfold integrate
        split <;> rfl
      rw [List.foldlM_cons, hstep, List.foldl_cons]
      exact ih fun k' hk' => hops ▸ hkeys k' (List.mem_cons_of_mem k hk')

theorem drainLoopChecked_eq {n : CrdtNode} (hn : Wf n) (fuel : Nat) :
    drainLoopChecked fuel n = .ok (drainLoop fuel n) := by
  induction fuel generalizing n with
  | zero => rfl
  | succ fuel ih =>
      have hfold : n.readyKeys.foldlM integrateChecked n = .ok (n.readyKeys.foldl integrate n) := by
        refine foldlM_integrateChecked fun k hk => ?_
        obtain ⟨-, op, hop, -⟩ := mem_readyKeys.mp hk
        exact mem_of_getElem?_eq_some hop
      have hnext := ih (star_wf (pass_integrates hn).1 hn)
      rw [drainLoopChecked, drainLoop, collectReady_toList hn]
      simp only [bind, Except.bind, hfold, hnext]
      split <;> rfl

theorem drainChecked_eq {n : CrdtNode} (hn : Wf n) : n.drainChecked = .ok n.drain :=
  drainLoopChecked_eq hn _

theorem bufferFullChecked_eq {n : CrdtNode} (hn : Wf n) {op : CrdtOp}
    (hvalid : CrdtNode.valid op = true) :
    n.bufferFullChecked op =
      .ok (!n.ready op && decide (n.maxPending ≤ n.ops.size - n.integrated.size)) := by
  have hle := size_le_of_subset hn.stored
  have hsub : subChecked n.ops.size n.integrated.size = .ok (n.ops.size - n.integrated.size) := by
    rw [subChecked, if_neg (by omega)]
  rw [bufferFullChecked, readyChecked_eq n hvalid, hsub]
  cases n.ready op <;> rfl

theorem applyChecked_eq {n : CrdtNode} (hn : Inv n) (op : CrdtOp) :
    n.applyChecked op = .ok (n.apply op) := by
  rw [applyChecked, apply]
  by_cases hterminal : (n.sealed || n.closed) = true
  · rw [if_pos hterminal, if_pos hterminal]
    rfl
  rw [if_neg hterminal, if_neg hterminal]
  by_cases hinvalid : (!valid op) = true
  · rw [if_pos hinvalid, if_pos hinvalid]
    rfl
  rw [if_neg hinvalid, if_neg hinvalid]
  by_cases hfloor : op.seq ≤ n.floor.getD op.origin 0
  · rw [if_pos hfloor, if_pos hfloor]
    rfl
  rw [if_neg hfloor, if_neg hfloor]
  have hopen : n.sealed = false ∧ n.closed = false := by simpa using hterminal
  have hadmits : Admits n op := ⟨hopen.1, hopen.2, by simpa using hinvalid, not_le.mp hfloor⟩
  cases hop : n.ops[key op]? with
  | some previous =>
      have hsettle := drainChecked_eq (hn.toWf.settle hadmits previous)
      simp only
      split
      · rfl
      · simp only [variantChecked_eq hadmits.valid, variantChecked_eq (hn.all_valid _ _ hop),
          bind, Except.bind]
        unfold CrdtNode.settle at hsettle
        rw [hsettle]
        rfl
  | none =>
      have hstore := drainChecked_eq (hn.toWf.store hadmits)
      simp only [bufferFullChecked_eq hn.toWf hadmits.valid, bind, Except.bind]
      split
      · rfl
      · unfold CrdtNode.store at hstore
        rw [hstore]
        rfl

/-- On a node that satisfies the invariant no `expect`, subtraction or index fails. -/
theorem handleChecked_eq {n : CrdtNode} (hn : Inv n) (input : CrdtInput) :
    n.handleChecked input = .ok (n.handle input) := by
  cases input with
  | apply op => exact applyChecked_eq hn op
  | _ => rfl

end CrdtNode

/-- **The representation invariant.**  In every reachable state the integrated keys
are stored, the stored operations are valid and above the floor, the integrated
sequence numbers of each origin fill the interval from the floor to the clock,
nothing that waits is ready, and no more than `maxPending` operations wait; so the
next input cannot panic either. -/
theorem reachable_representation (maxPending : Nat) (inputs : List CrdtInput) :
    let n := run maxPending inputs
    (∀ k ∈ n.integrated, k ∈ n.ops) ∧
      (∀ (k : OpKey) (op : CrdtOp), n.ops[k]? = some op →
        k = key op ∧ CrdtNode.valid op = true ∧ n.floor.getD op.origin 0 < op.seq) ∧
      (∀ o, n.floor.getD o 0 ≤ n.clock.getD o 0 ∧
        ∀ s, ⟨o, s⟩ ∈ n.integrated ↔ n.floor.getD o 0 + 1 ≤ s ∧ s ≤ n.clock.getD o 0) ∧
      (∀ (k : OpKey) (op : CrdtOp), n.ops[k]? = some op → k ∉ n.integrated →
        n.ready op = false) ∧
      (n.ops.toList.filter fun p => !n.integrated.contains p.1).length ≤ maxPending ∧
      ∀ input, n.handleChecked input = .ok (n.handle input) := by
  intro n
  have hn : n.Inv := run_inv maxPending inputs
  refine ⟨hn.stored, ?_, ?_, ?_, ?_, ?_⟩
  · intro k op hop
    exact ⟨hn.keyed k op hop, hn.all_valid k op hop, hn.above k op hop⟩
  · intro o
    refine ⟨hn.floor_le o, fun s => ?_⟩
    rw [hn.contiguous]
    omega
  · intro k op hop hnew
    exact hn.not_ready hop hnew
  · have hlength := length_filter_not_mem hn.stored
    have hbounded := hn.bounded
    rw [run_maxPending maxPending inputs] at hbounded
    omega
  · exact CrdtNode.handleChecked_eq hn

end TautShape.Crdt
