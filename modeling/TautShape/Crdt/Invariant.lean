import TautShape.Crdt.Drain
/-!
# The representation invariant

`Inv` is what holds between any two inputs.  Contiguity rests on readiness,
readiness on the drain fixpoint and the pending bound on both, so the clauses are
carried together through every input.
-/

namespace TautShape.Crdt

open TautShape.Lib

namespace CrdtNode

/-- The operation passes the checks in front of the store. -/
structure Admits (n : CrdtNode) (op : CrdtOp) : Prop where
  unsealed : n.sealed = false
  unclosed : n.closed = false
  valid : valid op = true
  above : n.floor.getD op.origin 0 < op.seq

/-- The store after an equivocating delivery: the smaller variant stays. -/
def settle (n : CrdtNode) (op previous : CrdtOp) : CrdtNode :=
  { n with
    equivocated := n.equivocated.insert (key op)
    ops := if (compare (variant op) (variant previous)).isLT then n.ops.insert (key op) op
      else n.ops }

def store (n : CrdtNode) (op : CrdtOp) : CrdtNode :=
  { n with ops := n.ops.insert (key op) op }

theorem settle_getElem? (n : CrdtNode) (op previous : CrdtOp) (k : OpKey) :
    (n.settle op previous).ops[k]? =
      if (compare (variant op) (variant previous)).isLT = true ∧ key op = k then some op
      else n.ops[k]? := by
  by_cases hless : (compare (variant op) (variant previous)).isLT = true
  · simp [CrdtNode.settle, hless, getElem?_insert]
  · simp [CrdtNode.settle, hless]

inductive Applies (n : CrdtNode) (op : CrdtOp) : CrdtNode × List CrdtOutput → Prop where
  | terminal (h : n.sealed = true ∨ n.closed = true) :
      Applies n op (n, [diagnostic .applyAfterTerminal (some op)])
  | invalid (hsealed : n.sealed = false) (hclosed : n.closed = false)
      (h : CrdtNode.valid op = false) :
      Applies n op (n, [diagnostic .invalidOperation (some op)])
  | belowFloor (hsealed : n.sealed = false) (hclosed : n.closed = false)
      (h : op.seq ≤ n.floor.getD op.origin 0) : Applies n op (n, [])
  | duplicate (h : Admits n op) (hop : n.ops[key op]? = some op) : Applies n op (n, [])
  | equivocation (h : Admits n op) (previous : CrdtOp) (hop : n.ops[key op]? = some previous)
      (hne : previous ≠ op) :
      Applies n op ((n.settle op previous).drain,
        if n.equivocated.contains (key op) then [] else [diagnostic .equivocation (some op)])
  | overflow (h : Admits n op) (hop : n.ops[key op]? = none) (hready : n.ready op = false)
      (hfull : n.maxPending ≤ n.ops.size - n.integrated.size) :
      Applies n op (n, [diagnostic .pendingBoundExceeded (some op)])
  | stored (h : Admits n op) (hop : n.ops[key op]? = none)
      (hroom : n.ready op = true ∨ n.ops.size - n.integrated.size < n.maxPending) :
      Applies n op ((n.store op).drain, [])

theorem apply_spec (n : CrdtNode) (op : CrdtOp) : Applies n op (n.apply op) := by
  rw [apply]
  by_cases hterminal : (n.sealed || n.closed) = true
  · rw [if_pos hterminal]
    exact .terminal (by simpa using hterminal)
  have hopen := hterminal
  simp only [Bool.or_eq_true, not_or, Bool.not_eq_true] at hopen
  rw [if_neg hterminal]
  by_cases hvalid : CrdtNode.valid op = true
  swap
  · rw [if_pos (by simpa using hvalid)]
    exact .invalid hopen.1 hopen.2 (by simpa using hvalid)
  rw [if_neg (by simp [hvalid])]
  by_cases hfloor : op.seq ≤ n.floor.getD op.origin 0
  · rw [if_pos hfloor]
    exact .belowFloor hopen.1 hopen.2 hfloor
  rw [if_neg hfloor]
  have hadmits : Admits n op := ⟨hopen.1, hopen.2, hvalid, not_le.mp hfloor⟩
  cases hop : n.ops[key op]? with
  | some previous =>
      simp only
      by_cases heq : previous = op
      · rw [if_pos heq]
        exact .duplicate hadmits (heq ▸ hop)
      · rw [if_neg heq]
        exact .equivocation hadmits previous hop heq
  | none =>
      simp only
      by_cases hbound :
          (!n.ready op && decide (n.maxPending ≤ n.ops.size - n.integrated.size)) = true
      · rw [if_pos hbound]
        simp only [Bool.and_eq_true, Bool.not_eq_true', decide_eq_true_eq] at hbound
        exact .overflow hadmits hop hbound.1 hbound.2
      · rw [if_neg hbound]
        refine .stored hadmits hop ?_
        cases hready : n.ready op with
        | true => exact .inl rfl
        | false => exact .inr (by simpa [hready] using hbound)

inductive Installs (n : CrdtNode) (b : CrdtBootstrap) : CrdtNode × List CrdtOutput → Prop where
  | rejected (code : CrdtDiagCode) : Installs n b (n, [diagnostic code none])
  | again (h : n.bootstrap = some b) : Installs n b (n, [])
  | installed (parsed : ClockMap) (hparsed : clockMap b.clock = some parsed)
      (hnone : n.bootstrap = none) (hempty : n.ops = ∅) :
      Installs n b ({ n with floor := parsed, clock := parsed, bootstrap := some b }, [])

theorem installBootstrap_spec (n : CrdtNode) (b : CrdtBootstrap) :
    Installs n b (n.installBootstrap b) := by
  rw [installBootstrap]
  split
  · exact .rejected _
  · cases hparsed : clockMap b.clock with
    | none => exact .rejected _
    | some parsed =>
        simp only
        split
        · rename_i heq
          exact .again heq
        · split
          · exact .rejected _
          · rename_i hconflict
            simp only [Bool.or_eq_true, not_or, Bool.not_eq_true, Bool.not_eq_false',
              Option.isSome_eq_false_iff, Option.isNone_iff_eq_none,
              Std.ExtTreeMap.isEmpty_iff] at hconflict
            exact .installed parsed hparsed hconflict.1 hconflict.2

/-! ## The invariant -/

structure Inv (n : CrdtNode) : Prop extends Wf n where
  drained : n.readyKeys = []
  bounded : n.ops.size - n.integrated.size ≤ n.maxPending
  bootstrapped : ∀ b, n.bootstrap = some b → clockMap b.clock = some n.floor
  unbootstrapped : n.bootstrap = none → n.floor = ∅

theorem inv_new (maxPending : Nat) : Inv (new maxPending) where
  toWf := by constructor <;> simp [new, CanonicalMap]
  drained := rfl
  bounded := by simp [new]
  bootstrapped := by simp [new]
  unbootstrapped := by simp [new]

theorem Inv.not_ready {n : CrdtNode} (hn : Inv n) {k : OpKey} {op : CrdtOp}
    (hop : n.ops[k]? = some op) (hnew : k ∉ n.integrated) : n.ready op = false := by
  by_contra hready
  have hmem : k ∈ n.readyKeys := mem_readyKeys.mpr ⟨hnew, op, hop, by simpa using hready⟩
  rw [hn.drained] at hmem
  simp at hmem

/-- The well-formedness of a node only looks at its store, clocks and integrated set. -/
theorem Wf.with_op {n : CrdtNode} (hn : Wf n) {op : CrdtOp} (h : Admits n op)
    (equivocated : BTreeSet OpKey) :
    Wf { n with ops := n.ops.insert (key op) op, equivocated := equivocated } := by
  have hlookup : ∀ (k : OpKey) (op' : CrdtOp), (n.ops.insert (key op) op)[k]? = some op' →
      (key op = k ∧ op = op') ∨ n.ops[k]? = some op' := by
    intro k op' hop'
    rw [getElem?_insert] at hop'
    split at hop'
    · rename_i heq
      exact .inl ⟨heq, by simpa using hop'⟩
    · exact .inr hop'
  refine { hn with keyed := ?_, all_valid := ?_, above := ?_, stored := ?_ }
  · intro k op' hop'
    rcases hlookup k op' hop' with ⟨rfl, rfl⟩ | hop'
    · rfl
    · exact hn.keyed k op' hop'
  · intro k op' hop'
    rcases hlookup k op' hop' with ⟨rfl, rfl⟩ | hop'
    · exact h.valid
    · exact hn.all_valid k op' hop'
  · intro k op' hop'
    rcases hlookup k op' hop' with ⟨rfl, rfl⟩ | hop'
    · exact h.above
    · exact hn.above k op' hop'
  · intro k hk
    exact Std.ExtTreeMap.mem_insert.mpr (.inr (hn.stored k hk))

theorem Wf.store {n : CrdtNode} (hn : Wf n) {op : CrdtOp} (h : Admits n op) :
    Wf (n.store op) :=
  hn.with_op h n.equivocated

theorem Wf.settle {n : CrdtNode} (hn : Wf n) {op : CrdtOp} (h : Admits n op)
    (previous : CrdtOp) : Wf (n.settle op previous) := by
  unfold CrdtNode.settle
  split
  · exact hn.with_op h _
  · exact { hn with }

theorem drain_size_le {n : CrdtNode} (hn : Wf n) :
    n.integrated.size ≤ n.drain.integrated.size :=
  set_size_le fun _ hk => drain_integrated hn hk

/-- An operation that was ready when it was stored is integrated by the drain. -/
theorem store_integrated {n : CrdtNode} (hn : Wf n) {op : CrdtOp} (h : Admits n op)
    (hready : n.ready op = true) : key op ∈ (n.store op).drain.integrated :=
  mem_drain_of_ready (hn.store h) (by simp [CrdtNode.store]) hready

/-- A node that was given an operation and drained, with room in its buffer. -/
theorem Inv.of_drain {n m : CrdtNode} (hn : Inv n) (hm : Wf m)
    (hbounded : m.ops.size - m.drain.integrated.size ≤ m.maxPending)
    (hbootstrap : m.bootstrap = n.bootstrap) (hfloor : m.floor = n.floor) : Inv m.drain where
  toWf := drain_wf hm
  drained := readyKeys_drain hm
  bounded := by rwa [drain_ops, drain_maxPending]
  bootstrapped := by
    rw [drain_bootstrap, drain_floor, hbootstrap, hfloor]
    exact hn.bootstrapped
  unbootstrapped := by
    rw [drain_bootstrap, drain_floor, hbootstrap, hfloor]
    exact hn.unbootstrapped

theorem Inv.store {n : CrdtNode} (hn : Inv n) {op : CrdtOp} (h : Admits n op)
    (hop : n.ops[key op]? = none)
    (hroom : n.ready op = true ∨ n.ops.size - n.integrated.size < n.maxPending) :
    Inv (n.store op).drain := by
  have hstore := hn.toWf.store h
  have habsent : key op ∉ n.ops := by
    rw [Std.ExtTreeMap.mem_iff_isSome_getElem?, hop]
    simp
  have hsize : (n.store op).ops.size = n.ops.size + 1 := by
    rw [CrdtNode.store, Std.ExtTreeMap.size_insert, if_neg (by simpa using habsent)]
  have hgrow : n.integrated.size ≤ (n.store op).drain.integrated.size := drain_size_le hstore
  have hbounded := hn.bounded
  refine hn.of_drain hstore ?_ rfl rfl
  rw [hsize]
  show _ ≤ n.maxPending
  rcases hroom with hready | hroom
  · -- the operation itself is integrated, so the buffer has not grown
    have hfresh : key op ∉ n.integrated := fun hk => habsent (hn.stored _ hk)
    have hmem := store_integrated hn.toWf h hready
    have hlt : n.integrated.size < (n.store op).drain.integrated.size :=
      set_size_lt (fun _ hk => drain_integrated hstore hk) hmem hfresh
    omega
  · omega

theorem settle_ops_size {n : CrdtNode} {op previous : CrdtOp}
    (hop : n.ops[key op]? = some previous) : (n.settle op previous).ops.size = n.ops.size := by
  unfold CrdtNode.settle
  simp only
  split
  · rw [Std.ExtTreeMap.size_insert, if_pos (by simpa using mem_of_getElem?_eq_some hop)]
  · rfl

theorem Inv.settle {n : CrdtNode} (hn : Inv n) {op previous : CrdtOp} (h : Admits n op)
    (hop : n.ops[key op]? = some previous) : Inv (n.settle op previous).drain := by
  have hsettle := hn.toWf.settle h previous
  have hgrow : n.integrated.size ≤ (n.settle op previous).drain.integrated.size :=
    drain_size_le hsettle
  have hbounded := hn.bounded
  refine hn.of_drain hsettle ?_ rfl rfl
  rw [settle_ops_size hop]
  show _ ≤ n.maxPending
  omega

theorem Inv.apply {n : CrdtNode} (hn : Inv n) (op : CrdtOp) : Inv (n.apply op).1 := by
  have hspec := n.apply_spec op
  generalize n.apply op = result at hspec ⊢
  cases hspec with
  | terminal _ => exact hn
  | invalid _ _ _ => exact hn
  | belowFloor _ _ _ => exact hn
  | duplicate _ _ => exact hn
  | equivocation h previous hop _ => exact hn.settle h hop
  | overflow _ _ _ _ => exact hn
  | stored h hop hroom => exact hn.store h hop hroom

theorem not_mem_integrated_of_empty {n : CrdtNode} (hn : Wf n) (hempty : n.ops = ∅)
    (k : OpKey) : k ∉ n.integrated := by
  intro hk
  have hmem := hn.stored k hk
  rw [hempty] at hmem
  exact Std.ExtTreeMap.not_mem_empty hmem

theorem Inv.installBootstrap {n : CrdtNode} (hn : Inv n) (b : CrdtBootstrap) :
    Inv (n.installBootstrap b).1 := by
  have hspec := n.installBootstrap_spec b
  generalize n.installBootstrap b = result at hspec ⊢
  cases hspec with
  | rejected _ => exact hn
  | again _ => exact hn
  | installed parsed hparsed hnone hempty =>
      have hintegrated := not_mem_integrated_of_empty hn.toWf hempty
      have hcanonical := clockMap_canonical hparsed
      refine ⟨⟨hn.keyed, hn.all_valid, ?_, hn.stored, ?_, fun _ => le_rfl, hcanonical,
        hcanonical⟩, ?_, hn.bounded, ?_, by simp⟩
      · simp [hempty]
      · intro o s
        have hnot := hintegrated ⟨o, s⟩
        simp only [hnot, false_iff]
        omega
      · simp [readyKeys, hempty]
      · simp only [Option.some.injEq, forall_eq']
        exact hparsed

theorem Inv.handle {n : CrdtNode} (hn : Inv n) (input : CrdtInput) :
    Inv (n.handle input).1 := by
  cases input with
  | apply op => exact hn.apply op
  | installBootstrap b => exact hn.installBootstrap b
  | «seal» =>
      simp only [CrdtNode.handle]
      split
      · exact hn
      · exact { hn with }
  | close error =>
      simp only [CrdtNode.handle]
      split
      · exact hn
      · exact { hn with }
  | read request => exact hn

theorem handle_maxPending (n : CrdtNode) (input : CrdtInput) :
    (n.handle input).1.maxPending = n.maxPending := by
  cases input with
  | apply op =>
      rw [handle_apply]
      have hspec := n.apply_spec op
      generalize n.apply op = result at hspec ⊢
      cases hspec with
      | equivocation _ _ _ _ => simp [CrdtNode.settle]
      | stored _ _ _ => simp [CrdtNode.store]
      | _ => rfl
  | installBootstrap b =>
      rw [handle_installBootstrap]
      have hspec := n.installBootstrap_spec b
      generalize n.installBootstrap b = result at hspec ⊢
      cases hspec <;> rfl
  | «seal» => simp only [CrdtNode.handle]; split <;> rfl
  | close error => simp only [CrdtNode.handle]; split <;> rfl
  | read request => rfl

/-! ## What an input moves -/

theorem apply_bootstrap (n : CrdtNode) (op : CrdtOp) :
    (n.apply op).1.bootstrap = n.bootstrap := by
  have hspec := n.apply_spec op
  generalize n.apply op = result at hspec ⊢
  cases hspec with
  | equivocation _ _ _ _ => simp [CrdtNode.settle]
  | stored _ _ _ => simp [CrdtNode.store]
  | _ => rfl

theorem apply_floor (n : CrdtNode) (op : CrdtOp) :
    (n.apply op).1.floor = n.floor := by
  have hspec := n.apply_spec op
  generalize n.apply op = result at hspec ⊢
  cases hspec with
  | equivocation _ _ _ _ => simp [CrdtNode.settle]
  | stored _ _ _ => simp [CrdtNode.store]
  | _ => rfl

theorem apply_clock_le {n : CrdtNode} (hn : Inv n) (op : CrdtOp) (o : String) :
    n.clock.getD o 0 ≤ (n.apply op).1.clock.getD o 0 := by
  have hspec := n.apply_spec op
  generalize n.apply op = result at hspec ⊢
  cases hspec with
  | equivocation hadmits previous _ _ => exact drain_clock_le (hn.toWf.settle hadmits previous) o
  | stored hadmits _ _ => exact drain_clock_le (hn.toWf.store hadmits) o
  | _ => exact le_rfl

theorem Inv.clock_eq_of_fresh {n : CrdtNode} (hn : Inv n) (hnone : n.bootstrap = none)
    (hempty : n.ops = ∅) : n.clock = ∅ := by
  have hfloor := hn.unbootstrapped hnone
  refine hn.clock_canonical.ext (by simp [CanonicalMap]) fun o => ?_
  rw [Std.ExtTreeMap.getD_empty]
  have hnot := not_mem_integrated_of_empty hn.toWf hempty ⟨o, n.clock.getD o 0⟩
  rw [hn.contiguous, hfloor, Std.ExtTreeMap.getD_empty] at hnot
  have hpos := hn.clock_canonical.getD_nonneg o
  omega

end CrdtNode

theorem run_inv (maxPending : Nat) (inputs : List CrdtInput) : (run maxPending inputs).Inv :=
  after_induction CrdtNode.handle (CrdtNode.inv_new maxPending) fun _ input _ hn =>
    hn.handle input

theorem run_maxPending (maxPending : Nat) (inputs : List CrdtInput) :
    (run maxPending inputs).maxPending = maxPending :=
  after_induction CrdtNode.handle (P := fun n => n.maxPending = maxPending) rfl
    fun n input _ hn => (n.handle_maxPending input).trans hn

end TautShape.Crdt
