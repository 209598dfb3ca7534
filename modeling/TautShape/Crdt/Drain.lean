import TautShape.Crdt.Node
/-!
# The drain loop

A pass of the loop tests every stored operation against one clock and integrates
the keys that passed.  Clocks only grow, so a key is still ready when its turn
comes: the whole loop is a sequence of single integrations of ready operations,
and it stops when none is left.
-/

namespace TautShape.Crdt

open TautShape.Lib

/-! ## Readiness -/

theorem valid_iff {op : CrdtOp} :
    CrdtNode.valid op = true ↔
      ∃ deps, clockMap op.deps = some deps ∧ op.origin ≠ "" ∧ 0 < op.seq ∧
        deps.getD op.origin 0 < op.seq := by
  unfold CrdtNode.valid
  cases clockMap op.deps <;> simp [and_assoc]

def DepsCovered (clock : ClockMap) (op : CrdtOp) : Prop :=
  ∀ e ∈ op.deps.entries, e.seq ≤ clock.getD e.origin 0

instance (clock : ClockMap) (op : CrdtOp) : Decidable (DepsCovered clock op) :=
  inferInstanceAs (Decidable (∀ e ∈ op.deps.entries, _))

theorem DepsCovered.mono {clock clock' : ClockMap} {op : CrdtOp} (h : DepsCovered clock op)
    (hle : ∀ o, clock.getD o 0 ≤ clock'.getD o 0) : DepsCovered clock' op :=
  fun e he => (h e he).trans (hle e.origin)

namespace CrdtNode

theorem ready_iff {n : CrdtNode} {op : CrdtOp} (hvalid : valid op = true) :
    n.ready op = true ↔ op.seq ≤ n.clock.getD op.origin 0 + 1 ∧ DepsCovered n.clock op := by
  obtain ⟨deps, hdeps, -⟩ := valid_iff.mp hvalid
  have hall : (deps.toList.all fun p => decide (p.2 ≤ n.clock.getD p.1 0)) = true ↔
      DepsCovered n.clock op := by
    rw [clockMap_toList hdeps]
    simp [DepsCovered]
  unfold ready
  rw [hdeps, Option.getD_some]
  split
  · rename_i hlt
    simp [hlt]
  · rename_i hle
    rw [hall]
    exact ⟨fun h => ⟨not_lt.mp hle, h⟩, fun h => h.2⟩

/-! ## Single integrations -/

/-- What holds between any two inputs and inside the drain loop: the store is keyed
by valid operations above the floor, and the integrated keys of each origin are
exactly those above the floor and up to the clock. -/
structure Wf (n : CrdtNode) : Prop where
  keyed : ∀ (k : OpKey) (op : CrdtOp), n.ops[k]? = some op → k = key op
  all_valid : ∀ (k : OpKey) (op : CrdtOp), n.ops[k]? = some op → valid op = true
  above : ∀ (k : OpKey) (op : CrdtOp), n.ops[k]? = some op → n.floor.getD op.origin 0 < op.seq
  stored : ∀ k ∈ n.integrated, k ∈ n.ops
  contiguous : ∀ o s, ⟨o, s⟩ ∈ n.integrated ↔ n.floor.getD o 0 < s ∧ s ≤ n.clock.getD o 0
  floor_le : ∀ o, n.floor.getD o 0 ≤ n.clock.getD o 0
  floor_canonical : CanonicalMap n.floor
  clock_canonical : CanonicalMap n.clock

/-- One ready operation moves from the buffer to the integrated set. -/
inductive Integrates (n : CrdtNode) : CrdtNode → Prop where
  | mk (k : OpKey) (op : CrdtOp) (hop : n.ops[k]? = some op) (hnew : k ∉ n.integrated)
      (hready : n.ready op = true) : Integrates n (n.integrate k)

theorem integrate_eq {n : CrdtNode} {k : OpKey} {op : CrdtOp} (hop : n.ops[k]? = some op) :
    n.integrate k = { n with
      integrated := n.integrated.insert k
      clock := n.clock.alter op.origin fun
        | some seq => some (max seq op.seq)
        | none => some op.seq } := by
  grind [integrate]

theorem clock_integrate {n : CrdtNode} {k : OpKey} {op : CrdtOp} (hop : n.ops[k]? = some op)
    (hpos : 0 < op.seq) (o : String) :
    (n.integrate k).clock.getD o 0 =
      if op.origin = o then max (n.clock.getD o 0) op.seq else n.clock.getD o 0 := by
  rw [integrate_eq hop]
  simp only [Std.ExtTreeMap.getD_eq_getD_getElem?, Std.ExtTreeMap.getElem?_alter,
    Std.LawfulEqCmp.compare_eq_iff_eq]
  split
  · rename_i heq
    subst heq
    cases n.clock[op.origin]? with
    | none => simp [hpos.le]
    | some seq => simp
  · rfl

/-- An operation that is not integrated yet is above the clock of its origin, so the
addition in `ready`, which is only asked about such operations, stays below its `seq`. -/
theorem Wf.clock_lt {n : CrdtNode} (hn : Wf n) {op : CrdtOp}
    (habove : n.floor.getD op.origin 0 < op.seq) (hnew : key op ∉ n.integrated) :
    n.clock.getD op.origin 0 < op.seq := by
  by_contra hcovered
  exact hnew ((hn.contiguous op.origin op.seq).mpr ⟨habove, not_lt.mp hcovered⟩)

/-- A ready operation that is not integrated yet is the next one of its origin. -/
theorem Wf.seq_eq {n : CrdtNode} (hn : Wf n) {op : CrdtOp} (hvalid : valid op = true)
    (habove : n.floor.getD op.origin 0 < op.seq) (hnew : key op ∉ n.integrated)
    (hready : n.ready op = true) : op.seq = n.clock.getD op.origin 0 + 1 := by
  have hle := ((ready_iff hvalid).mp hready).1
  have hlt := hn.clock_lt habove hnew
  omega

theorem Integrates.wf {n n' : CrdtNode} (h : Integrates n n') (hn : Wf n) : Wf n' := by
  obtain ⟨k, op, hop, hnew, hready⟩ := h
  obtain ⟨_, _, horigin, hpos, _⟩ := valid_iff.mp (hn.all_valid k op hop)
  have hkey : k = ⟨op.origin, op.seq⟩ := hn.keyed k op hop
  have hlacks : key op ∉ n.integrated := by rwa [← hn.keyed k op hop]
  have hseq := hn.seq_eq (hn.all_valid k op hop) (hn.above k op hop) hlacks hready
  have hclock : ∀ o, (n.integrate k).clock.getD o 0 =
      if op.origin = o then op.seq else n.clock.getD o 0 := by
    intro o
    rw [clock_integrate hop hpos]
    split
    · rename_i heq
      subst heq
      omega
    · rfl
  have hops : (n.integrate k).ops = n.ops := by rw [integrate_eq hop]
  have hfloor : (n.integrate k).floor = n.floor := by rw [integrate_eq hop]
  have hintegrated : (n.integrate k).integrated = n.integrated.insert k := by
    rw [integrate_eq hop]
  constructor
  case keyed =>
    rw [hops]
    exact hn.keyed
  case all_valid =>
    rw [hops]
    exact hn.all_valid
  case above =>
    rw [hops, hfloor]
    exact hn.above
  case stored =>
    intro k' hk'
    rw [hops]
    rw [hintegrated, mem_insert_set] at hk'
    rcases hk' with rfl | hk'
    · exact mem_of_getElem?_eq_some hop
    · exact hn.stored k' hk'
  case contiguous =>
    intro o s
    have hfl := hn.floor_le op.origin
    rw [hintegrated, mem_insert_set, hn.contiguous, hfloor, hclock, hkey]
    simp only [OpKey.mk.injEq]
    split
    · rename_i heq
      subst heq
      constructor
      · rintro (⟨-, rfl⟩ | h) <;> omega
      · intro h
        by_cases hs : s ≤ n.clock.getD op.origin 0
        · exact .inr ⟨h.1, hs⟩
        · exact .inl ⟨rfl, by omega⟩
    · rename_i hne
      simp [hne]
  case floor_le =>
    intro o
    have hfl := hn.floor_le o
    rw [hfloor, hclock]
    split
    · rename_i heq
      subst heq
      omega
    · exact hfl
  case floor_canonical =>
    rw [hfloor]
    exact hn.floor_canonical
  case clock_canonical =>
    intro o s hos
    rw [integrate_eq hop] at hos
    simp only [Std.ExtTreeMap.getElem?_alter, Std.LawfulEqCmp.compare_eq_iff_eq] at hos
    split at hos
    · rename_i heq
      subst heq
      refine ⟨horigin, ?_⟩
      cases hc : n.clock[op.origin]? <;> simp only [hc, Option.some.injEq] at hos <;> omega
    · exact hn.clock_canonical o s hos

theorem Integrates.clock_le {n n' : CrdtNode} (h : Integrates n n') (hn : Wf n) (o : String) :
    n.clock.getD o 0 ≤ n'.clock.getD o 0 := by
  obtain ⟨k, op, hop, -, -⟩ := h
  obtain ⟨_, _, _, hpos, _⟩ := valid_iff.mp (hn.all_valid k op hop)
  rw [clock_integrate hop hpos]
  split
  · exact le_max_left _ _
  · exact le_rfl

theorem ready_mono {n m : CrdtNode} {op : CrdtOp} (hvalid : CrdtNode.valid op = true)
    (hle : ∀ o, n.clock.getD o 0 ≤ m.clock.getD o 0) (h : n.ready op = true) :
    m.ready op = true := by
  obtain ⟨hseq, hdeps⟩ := (ready_iff hvalid).mp h
  have hnext := hle op.origin
  exact (ready_iff hvalid).mpr ⟨by omega, hdeps.mono hle⟩

/-! ## The loop as a sequence of integrations -/

theorem Integrates.size {n n' : CrdtNode} (h : Integrates n n') :
    n'.integrated.size = n.integrated.size + 1 := by
  obtain ⟨k, op, hop, hnew, -⟩ := h
  rw [integrate_eq hop]
  simp only
  rw [Std.ExtTreeSet.size_insert, if_neg (by simpa using hnew)]

/-- The keys of a pass are integrated one after another: each is still ready when
its turn comes, because the clock has only grown since the pass began. -/
theorem foldl_integrate {keys : List OpKey} {n : CrdtNode} (hn : Wf n) (hkeys : keys.Nodup)
    (hready : ∀ k ∈ keys, k ∉ n.integrated ∧
      ∃ op : CrdtOp, n.ops[k]? = some op ∧ n.ready op = true) :
    Relation.ReflTransGen Integrates n (keys.foldl integrate n) ∧
      (keys.foldl integrate n).integrated.size = n.integrated.size + keys.length := by
  induction keys generalizing n with
  | nil => exact ⟨.refl, rfl⟩
  | cons k rest ih =>
      obtain ⟨hfresh, hrest⟩ := List.nodup_cons.mp hkeys
      obtain ⟨hnew, op, hop, hopready⟩ := hready k (by simp)
      have hstep : Integrates n (n.integrate k) := .mk k op hop hnew hopready
      have hlater : ∀ k' ∈ rest, k' ∉ (n.integrate k).integrated ∧
          ∃ op' : CrdtOp, (n.integrate k).ops[k']? = some op' ∧
            (n.integrate k).ready op' = true := by
        intro k' hk'
        obtain ⟨hnew', op', hop', hready'⟩ := hready k' (List.mem_cons_of_mem k hk')
        have hne : k ≠ k' := fun heq => hfresh (heq ▸ hk')
        refine ⟨?_, op', ?_, ready_mono (hn.all_valid k' op' hop') (hstep.clock_le hn) hready'⟩
        · rw [integrate_eq hop, mem_insert_set]
          simp [hne, hnew']
        · rw [integrate_eq hop]
          exact hop'
      obtain ⟨hstar, hsize⟩ := ih (hstep.wf hn) hrest hlater
      have hone := hstep.size
      refine ⟨.head hstep hstar, ?_⟩
      rw [List.foldl_cons, hsize, hone, List.length_cons]
      omega

theorem mem_readyKeys {n : CrdtNode} {k : OpKey} :
    k ∈ n.readyKeys ↔ k ∉ n.integrated ∧
      ∃ op : CrdtOp, n.ops[k]? = some op ∧ n.ready op = true := by
  simp only [readyKeys, List.mem_map, List.mem_filter, Bool.and_eq_true, Bool.not_eq_true',
    Prod.exists, exists_and_right, exists_eq_right, Std.ExtTreeMap.mem_toList_iff_getElem?_eq_some,
    ← Bool.not_eq_true, Std.ExtTreeSet.contains_iff_mem]
  exact ⟨fun ⟨op, hop, hnew, hready⟩ => ⟨hnew, op, hop, hready⟩,
    fun ⟨hnew, op, hop, hready⟩ => ⟨op, hop, hnew, hready⟩⟩

theorem readyKeys_nodup (n : CrdtNode) : n.readyKeys.Nodup := by
  have hkeys : n.ops.keys.Nodup := by
    refine Std.ExtTreeMap.ordered_keys.imp ?_
    rintro a b hlt rfl
    simp at hlt
  rw [← Std.ExtTreeMap.map_fst_toList_eq_keys] at hkeys
  exact hkeys.sublist ((List.filter_sublist).map Prod.fst)

theorem pass_integrates {n : CrdtNode} (hn : Wf n) :
    Relation.ReflTransGen Integrates n (n.readyKeys.foldl integrate n) ∧
      (n.readyKeys.foldl integrate n).integrated.size =
        n.integrated.size + n.readyKeys.length :=
  foldl_integrate hn n.readyKeys_nodup fun _ hk => mem_readyKeys.mp hk

theorem star_wf {n n' : CrdtNode} (h : Relation.ReflTransGen Integrates n n') (hn : Wf n) :
    Wf n' := by
  induction h with
  | refl => exact hn
  | tail _ hstep ih => exact hstep.wf ih

theorem drainLoop_star {n : CrdtNode} (fuel : Nat) (hn : Wf n) :
    Relation.ReflTransGen Integrates n (drainLoop fuel n) := by
  induction fuel generalizing n with
  | zero => exact .refl
  | succ fuel ih =>
      rw [drainLoop]
      split
      · exact .refl
      · exact (pass_integrates hn).1.trans (ih (star_wf (pass_integrates hn).1 hn))

/-- The rule for the drain loop: what every single integration keeps, the loop keeps. -/
theorem drain_induction {P : CrdtNode → Prop} {n : CrdtNode} (hn : Wf n) (hP : P n)
    (hstep : ∀ m m', Wf m → P m → Integrates m m' → P m') : P n.drain := by
  have hstar : ∀ m, Relation.ReflTransGen Integrates n m → Wf m ∧ P m := by
    intro m hm
    induction hm with
    | refl => exact ⟨hn, hP⟩
    | tail _ h ih => exact ⟨h.wf ih.1, hstep _ _ ih.1 ih.2 h⟩
  exact (hstar _ (drainLoop_star _ hn)).2

theorem drain_wf {n : CrdtNode} (hn : Wf n) : Wf n.drain :=
  star_wf (drainLoop_star _ hn) hn

/-! ## Termination -/

theorem Integrates.ops_eq {n n' : CrdtNode} (h : Integrates n n') : n'.ops = n.ops := by
  obtain ⟨k, op, hop, -, -⟩ := h
  rw [integrate_eq hop]

theorem star_ops {n n' : CrdtNode} (h : Relation.ReflTransGen Integrates n n') :
    n'.ops = n.ops := by
  induction h with
  | refl => rfl
  | tail _ hstep ih => exact hstep.ops_eq.trans ih

theorem readyKeys_drainLoop {n : CrdtNode} {fuel : Nat} (hn : Wf n)
    (hfuel : n.ops.size < n.integrated.size + fuel) : (drainLoop fuel n).readyKeys = [] := by
  induction fuel generalizing n with
  | zero =>
      have hle := size_le_of_subset hn.stored
      omega
  | succ fuel ih =>
      rw [drainLoop]
      split
      · rename_i hempty
        exact List.isEmpty_iff.mp hempty
      · rename_i hsome
        obtain ⟨hstar, hsize⟩ := pass_integrates hn
        have hpos : 0 < n.readyKeys.length := by
          rw [List.length_pos_iff]
          simpa using hsome
        refine ih (star_wf hstar hn) ?_
        rw [star_ops hstar, hsize]
        omega

theorem readyKeys_drain {n : CrdtNode} (hn : Wf n) : n.drain.readyKeys = [] :=
  readyKeys_drainLoop hn (by omega)

/-- A node with nothing ready is left alone. -/
theorem drain_eq_self {n : CrdtNode} (h : n.readyKeys = []) : n.drain = n := by
  rw [drain, drainLoop, h]
  rfl

/-! ## What the loop leaves alone -/

theorem drain_frame {α : Type} (f : CrdtNode → α) (hf : ∀ n k, f (n.integrate k) = f n)
    (n : CrdtNode) : f n.drain = f n := by
  have hfold : ∀ (keys : List OpKey) (m : CrdtNode), f (keys.foldl integrate m) = f m := by
    intro keys
    induction keys with
    | nil => intro m; rfl
    | cons k rest ih => intro m; rw [List.foldl_cons, ih, hf]
  have hloop : ∀ fuel (m : CrdtNode), f (drainLoop fuel m) = f m := by
    intro fuel
    induction fuel with
    | zero => intro m; rfl
    | succ fuel ih =>
        intro m
        rw [drainLoop]
        split
        · rfl
        · rw [ih, hfold]
  exact hloop _ n

@[simp] theorem drain_ops (n : CrdtNode) : n.drain.ops = n.ops :=
  drain_frame CrdtNode.ops (fun n k => by unfold integrate; split <;> rfl) n

@[simp] theorem drain_floor (n : CrdtNode) : n.drain.floor = n.floor :=
  drain_frame CrdtNode.floor (fun n k => by unfold integrate; split <;> rfl) n

@[simp] theorem drain_maxPending (n : CrdtNode) : n.drain.maxPending = n.maxPending :=
  drain_frame CrdtNode.maxPending (fun n k => by unfold integrate; split <;> rfl) n

@[simp] theorem drain_bootstrap (n : CrdtNode) : n.drain.bootstrap = n.bootstrap :=
  drain_frame CrdtNode.bootstrap (fun n k => by unfold integrate; split <;> rfl) n

@[simp] theorem drain_equivocated (n : CrdtNode) : n.drain.equivocated = n.equivocated :=
  drain_frame CrdtNode.equivocated (fun n k => by unfold integrate; split <;> rfl) n

@[simp] theorem drain_sealed (n : CrdtNode) : n.drain.sealed = n.sealed :=
  drain_frame CrdtNode.sealed (fun n k => by unfold integrate; split <;> rfl) n

@[simp] theorem drain_closed (n : CrdtNode) : n.drain.closed = n.closed :=
  drain_frame CrdtNode.closed (fun n k => by unfold integrate; split <;> rfl) n

/-! ## What the loop moves -/

theorem drain_clock_le {n : CrdtNode} (hn : Wf n) (o : String) :
    n.clock.getD o 0 ≤ n.drain.clock.getD o 0 :=
  drain_induction (P := fun m => n.clock.getD o 0 ≤ m.clock.getD o 0) hn le_rfl
    fun _ _ hm hle hstep => hle.trans (hstep.clock_le hm o)

theorem drain_integrated {n : CrdtNode} (hn : Wf n) {k : OpKey} (hk : k ∈ n.integrated) :
    k ∈ n.drain.integrated := by
  refine drain_induction (P := fun m => k ∈ m.integrated) hn hk ?_
  rintro m _ - hmem ⟨k', op, hop, -, -⟩
  rw [integrate_eq hop, mem_insert_set]
  exact .inr hmem

/-- After the loop, what is stored and still waiting is not ready. -/
theorem not_ready_of_drain {n : CrdtNode} (hn : Wf n) {k : OpKey} {op : CrdtOp}
    (hop : n.ops[k]? = some op) (hnew : k ∉ n.drain.integrated) : n.drain.ready op = false := by
  by_contra hready
  have hmem : k ∈ n.drain.readyKeys :=
    mem_readyKeys.mpr ⟨hnew, op, by rwa [drain_ops], by simpa using hready⟩
  rw [readyKeys_drain hn] at hmem
  simp at hmem

theorem mem_drain_of_ready {n : CrdtNode} (hn : Wf n) {k : OpKey} {op : CrdtOp}
    (hop : n.ops[k]? = some op) (hready : n.ready op = true) : k ∈ n.drain.integrated := by
  by_contra hnew
  have hlater : n.drain.ready op = true :=
    ready_mono (hn.all_valid k op hop) (drain_clock_le hn) hready
  rw [not_ready_of_drain hn hop hnew] at hlater
  simp at hlater

end CrdtNode

end TautShape.Crdt
