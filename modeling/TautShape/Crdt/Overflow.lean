import TautShape.Crdt.Invariant
import TautShape.Lib.Checked
/-!
# Where the clock could overflow

The engine with the one addition on its clocks made explicit: `ready` adds one to the clock
of an operation's origin, and a bootstrap may have set that clock to the greatest `i64`.
Whoever asks `ready` has an operation in hand whose key is not integrated yet, and its
sequence number is an `i64` above that clock.
-/

namespace TautShape.Crdt

open TautShape.Lib

def IsI64 (a : Int) : Prop := -2 ^ 63 ≤ a ∧ a < 2 ^ 63

instance (a : Int) : Decidable (IsI64 a) := inferInstanceAs (Decidable (_ ∧ _))

inductive Overflow where
  | add (a b : Int)
deriving DecidableEq, Repr

/-- Addition on `i64`, out of whose range it panics or, unchecked, wraps around. -/
def addI64 (a b : Int) : Except Overflow Int :=
  if IsI64 (a + b) then .ok (a + b) else .error (.add a b)

/-! ## Messages on the wire -/

def CrdtClock.InI64 (clock : CrdtClock) : Prop := ∀ e ∈ clock.entries, IsI64 e.seq

def CrdtInput.InI64 : CrdtInput → Prop
  | .apply op => IsI64 op.seq ∧ op.deps.InI64
  | .installBootstrap bootstrap => bootstrap.clock.InI64
  | .read request => ∀ cursor ∈ request.cursor, cursor.InI64
  | _ => True

namespace CrdtNode

/-! ## The engine -/

def readyI64 (n : CrdtNode) (op : CrdtOp) : Except Overflow Bool := do
  let next ← addI64 (n.clock.getD op.origin 0) 1
  if next < op.seq then
    return false
  return ((clockMap op.deps).getD ∅).toList.all fun p => decide (p.2 ≤ n.clock.getD p.1 0)

/-- The filter of the drain loop, which asks `ready` about what is not integrated. -/
def collectReadyI64 (n : CrdtNode) : List (OpKey × CrdtOp) → Except Overflow (List OpKey)
  | [] => return []
  | p :: rest => do
      let isReady ← if n.integrated.contains p.1 then pure false else n.readyI64 p.2
      let later ← n.collectReadyI64 rest
      return if isReady then p.1 :: later else later

def drainLoopI64 : Nat → CrdtNode → Except Overflow CrdtNode
  | 0, n => return n
  | fuel + 1, n => do
      let ready ← n.collectReadyI64 n.ops.toList
      if ready.isEmpty then
        return n
      drainLoopI64 fuel (ready.foldl integrate n)

def drainI64 (n : CrdtNode) : Except Overflow CrdtNode := drainLoopI64 (n.ops.size + 1) n

def applyI64 (n : CrdtNode) (op : CrdtOp) : Except Overflow (CrdtNode × List CrdtOutput) :=
  if n.sealed || n.closed then
    return (n, [diagnostic .applyAfterTerminal (some op)])
  else if !valid op then
    return (n, [diagnostic .invalidOperation (some op)])
  else if op.seq ≤ n.floor.getD op.origin 0 then
    return (n, [])
  else
    match n.ops[key op]? with
    | some previous =>
        if previous = op then
          return (n, [])
        else do
          let outputs :=
            if n.equivocated.contains (key op) then []
            else [diagnostic .equivocation (some op)]
          let ops :=
            if (compare (variant op) (variant previous)).isLT then n.ops.insert (key op) op
            else n.ops
          let drained ← drainI64
            { n with equivocated := n.equivocated.insert (key op), ops := ops }
          return (drained, outputs)
    | none => do
        let isReady ← n.readyI64 op
        if !isReady && decide (n.maxPending ≤ n.ops.size - n.integrated.size) then
          return (n, [diagnostic .pendingBoundExceeded (some op)])
        let drained ← drainI64 { n with ops := n.ops.insert (key op) op }
        return (drained, [])

def handleI64 (n : CrdtNode) : CrdtInput → Except Overflow (CrdtNode × List CrdtOutput)
  | .apply op => n.applyI64 op
  | input => return n.handle input

variable {n : CrdtNode} {op : CrdtOp}

/-! ## Room for one more -/

def HasNext (n : CrdtNode) (origin : String) : Prop := IsI64 (n.clock.getD origin 0 + 1)

theorem readyI64_eq (h : n.HasNext op.origin) : n.readyI64 op = .ok (n.ready op) := by
  have hadd : addI64 (n.clock.getD op.origin 0) 1 = .ok (n.clock.getD op.origin 0 + 1) :=
    if_pos h
  rw [readyI64, ready, hadd]
  change (if n.clock.getD op.origin 0 + 1 < op.seq then _ else _) = _
  split
  · rfl
  · rfl

theorem hasNext_of_lt (hn : Wf n) (hlt : n.clock.getD op.origin 0 < op.seq)
    (hrange : IsI64 op.seq) : n.HasNext op.origin := by
  have hpos := hn.clock_canonical.getD_nonneg op.origin
  unfold HasNext IsI64
  unfold IsI64 at hrange
  omega

def Ranged (n : CrdtNode) : Prop := ∀ (k : OpKey) (op : CrdtOp), n.ops[k]? = some op → IsI64 op.seq

/-- What is stored and not integrated is above the clock of its origin. -/
theorem hasNext_of_stored (hn : Wf n) (hranged : n.Ranged) {k : OpKey}
    (hop : n.ops[k]? = some op) (hnew : k ∉ n.integrated) : n.HasNext op.origin := by
  rw [hn.keyed k op hop] at hnew
  exact hasNext_of_lt hn (hn.clock_lt (hn.above k op hop) hnew) (hranged k op hop)

/-- What passes the checks and has no entry in the store is above the clock of its origin:
below it the store has every number above the floor. -/
theorem hasNext_of_absent (hn : Wf n) (h : Admits n op) (hop : n.ops[key op]? = none)
    (hrange : IsI64 op.seq) : n.HasNext op.origin := by
  have hnew : key op ∉ n.integrated := by
    intro hk
    have hmem := hn.stored (key op) hk
    rw [Std.ExtTreeMap.mem_iff_isSome_getElem?, hop] at hmem
    exact absurd hmem (by simp)
  exact hasNext_of_lt hn (hn.clock_lt h.above hnew) hrange

/-! ## The drain -/

theorem collectReadyI64_eq {l : List (OpKey × CrdtOp)}
    (h : ∀ p ∈ l, p.1 ∉ n.integrated → n.HasNext p.2.origin) :
    n.collectReadyI64 l =
      .ok ((l.filter fun p => !n.integrated.contains p.1 && n.ready p.2).map Prod.fst) := by
  induction l with
  | nil => rfl
  | cons p rest ih =>
      rw [List.forall_mem_cons] at h
      rw [collectReadyI64, ih h.2]
      cases hintegrated : n.integrated.contains p.1 with
      | true =>
          rw [List.filter_cons_of_neg (by simp [hintegrated])]
          rfl
      | false =>
          have hnew : p.1 ∉ n.integrated := by
            intro hk
            have htrue : n.integrated.contains p.1 = true := hk
            rw [hintegrated] at htrue
            exact absurd htrue (by decide)
          rw [if_neg (by decide), readyI64_eq (h.1 hnew)]
          cases hready : n.ready p.2 with
          | true =>
              rw [List.filter_cons_of_pos (by simp [hintegrated, hready])]
              rfl
          | false =>
              rw [List.filter_cons_of_neg (by simp [hready])]
              rfl

/-- No pass of the loop asks about an operation whose clock is at its end. -/
theorem drainLoopI64_eq (hn : Wf n) (hranged : n.Ranged) (fuel : Nat) :
    drainLoopI64 fuel n = .ok (drainLoop fuel n) := by
  induction fuel generalizing n with
  | zero => rfl
  | succ fuel ih =>
      have hcollect : n.collectReadyI64 n.ops.toList = .ok n.readyKeys := by
        apply collectReadyI64_eq
        intro p hp hnew
        exact hasNext_of_stored hn hranged
          (Std.ExtTreeMap.mem_toList_iff_getElem?_eq_some.mp hp) hnew
      have hstar := (pass_integrates hn).1
      have hranged' : (n.readyKeys.foldl integrate n).Ranged := by
        unfold Ranged
        rw [star_ops hstar]
        exact hranged
      have hnext := ih (star_wf hstar hn) hranged'
      rw [drainLoopI64, drainLoop, hcollect]
      change (if n.readyKeys.isEmpty then _ else _) = _
      split
      · rfl
      · exact hnext

theorem drainI64_eq (hn : Wf n) (hranged : n.Ranged) : n.drainI64 = .ok n.drain :=
  drainLoopI64_eq hn hranged _

/-! ## One input -/

theorem Ranged.insert (h : n.Ranged) (hop : IsI64 op.seq) (equivocated : BTreeSet OpKey) :
    { n with ops := n.ops.insert (key op) op, equivocated := equivocated }.Ranged := by
  intro k op' hop'
  rw [getElem?_insert] at hop'
  split at hop'
  · rw [Option.some_inj] at hop'
    exact hop' ▸ hop
  · exact h k op' hop'

theorem Ranged.settle (h : n.Ranged) (hop : IsI64 op.seq) (previous : CrdtOp) :
    (n.settle op previous).Ranged := by
  unfold CrdtNode.settle
  split
  · exact h.insert hop _
  · exact h

theorem Ranged.drain (h : n.Ranged) : n.drain.Ranged := by
  unfold Ranged
  rw [drain_ops]
  exact h

theorem Ranged.handle (h : n.Ranged) {input : CrdtInput} (hinput : input.InI64) :
    (n.handle input).1.Ranged := by
  cases input with
  | apply op =>
      have hspec := n.apply_spec op
      rw [handle_apply]
      generalize n.apply op = result at hspec ⊢
      cases hspec with
      | equivocation hadmits previous hop hne => exact (h.settle hinput.1 previous).drain
      | stored hadmits hop hroom => exact (h.insert hinput.1 n.equivocated).drain
      | _ => exact h
  | installBootstrap bootstrap =>
      have hspec := n.installBootstrap_spec bootstrap
      rw [handle_installBootstrap]
      generalize n.installBootstrap bootstrap = result at hspec ⊢
      cases hspec with
      | _ => exact h
  | «seal» =>
      rw [CrdtNode.handle]
      split
      · exact h
      · exact h
  | close error =>
      rw [CrdtNode.handle]
      split
      · exact h
      · exact h
  | read request => exact h

theorem applyI64_eq (hn : Inv n) (hranged : n.Ranged) (hop : IsI64 op.seq) :
    n.applyI64 op = .ok (n.apply op) := by
  rw [applyI64, CrdtNode.apply]
  by_cases hterminal : (n.sealed || n.closed) = true
  · rw [if_pos hterminal, if_pos hterminal]
    rfl
  rw [if_neg hterminal, if_neg hterminal]
  by_cases hinvalid : (!valid op) = true
  · rw [if_pos hinvalid, if_pos hinvalid]
    rfl
  rw [if_neg hinvalid, if_neg hinvalid]
  by_cases hfloor : op.seq ≤ n.floor.getD op.origin 0
  · rw [if_pos hfloor, if_pos hfloor]
    rfl
  rw [if_neg hfloor, if_neg hfloor]
  have hopen : n.sealed = false ∧ n.closed = false := by simpa using hterminal
  have hadmits : Admits n op := ⟨hopen.1, hopen.2, by simpa using hinvalid, not_le.mp hfloor⟩
  cases hlookup : n.ops[key op]? with
  | some previous =>
      have hsettle := drainI64_eq (hn.toWf.settle hadmits previous) (hranged.settle hop previous)
      unfold CrdtNode.settle at hsettle
      dsimp only
      split
      · rfl
      · rw [hsettle]
        rfl
  | none =>
      have hready := readyI64_eq (hasNext_of_absent hn.toWf hadmits hlookup hop)
      have hstore := drainI64_eq (hn.toWf.store hadmits) (hranged.insert hop n.equivocated)
      unfold CrdtNode.store at hstore
      dsimp only
      rw [hready]
      change (if (!n.ready op && decide (n.maxPending ≤ n.ops.size - n.integrated.size)) = true
        then _ else _) = _
      split
      · rfl
      · rw [hstore]
        rfl

theorem handleI64_eq (hn : Inv n) (hranged : n.Ranged) {input : CrdtInput}
    (hinput : input.InI64) : n.handleI64 input = .ok (n.handle input) := by
  cases input with
  | apply op => exact applyI64_eq hn hranged hinput.1
  | _ => rfl

end CrdtNode

/-! ## Whole runs -/

def runI64 (maxPending : Nat) (inputs : List CrdtInput) :
    Except Overflow (CrdtNode × List (List CrdtOutput)) :=
  runChecked CrdtNode.handleI64 (CrdtNode.new maxPending) inputs

/-- **Clocks at their end.**  In no run on `i64` numbers does `ready` add one to the
greatest of them: the run goes through, and does what the plain engine does. -/
theorem no_clock_overflow (maxPending : Nat) (inputs : List CrdtInput)
    (hinputs : ∀ input ∈ inputs, input.InI64) :
    runI64 maxPending inputs = .ok (run maxPending inputs,
      outputs CrdtNode.handle (CrdtNode.new maxPending) inputs) := by
  have hstart : (CrdtNode.new maxPending).Inv ∧ (CrdtNode.new maxPending).Ranged := by
    refine ⟨CrdtNode.inv_new maxPending, ?_⟩
    intro k op hop
    exact absurd hop (by simp [CrdtNode.new])
  apply runChecked_eq (P := fun n : CrdtNode => n.Inv ∧ n.Ranged) hstart
  · intro n input hinput hn
    exact ⟨hn.1.handle input, hn.2.handle (hinputs input hinput)⟩
  · intro n input hinput hn
    exact CrdtNode.handleI64_eq hn.1 hn.2 (hinputs input hinput)

/-- The clock of an origin starts one below the greatest number and reaches it. -/
theorem no_clock_overflow_at_end :
    let bootstrap : CrdtBootstrap := ⟨⟨[⟨"a", 2 ^ 63 - 2⟩, ⟨"b", 2 ^ 63 - 1⟩]⟩, []⟩
    let inputs : List CrdtInput := [.installBootstrap bootstrap,
      .apply ⟨"a", 2 ^ 63 - 1, ⟨[]⟩, [0]⟩, .apply ⟨"a", 2 ^ 63 - 1, ⟨[]⟩, [1]⟩,
      .apply ⟨"b", 2 ^ 63 - 1, ⟨[]⟩, []⟩]
    (∀ input ∈ inputs, input.InI64) ∧ runI64 0 inputs =
      .ok (run 0 inputs, outputs CrdtNode.handle (CrdtNode.new 0) inputs) := by
  intro bootstrap inputs
  have hinputs : ∀ input ∈ inputs, input.InI64 := by
    simp [inputs, bootstrap, CrdtInput.InI64, CrdtClock.InI64, IsI64]
  exact ⟨hinputs, no_clock_overflow 0 inputs hinputs⟩

end TautShape.Crdt
