import TautShape.Crdt.Delivery
/-!
# Convergence under equivocation

A key that arrives with several operations keeps the least variant, whatever the
order.  What is integrated on the way depends on the order: an operation may be
integrated through a variant that a smaller one replaces later.  Two replicas are
sure to agree exactly when the least variants alone deliver every key that all
variants together deliver.
-/

namespace TautShape.Crdt

open TautShape.Lib

/-- The operations no other operation of the set with the same key is below. -/
def leastVariants (ops : Set CrdtOp) : Set CrdtOp :=
  {op | op ∈ ops ∧ ∀ other ∈ ops, key other = key op →
    (compare (variant op) (variant other)).isLE = true}

/-- The keys that some causal order over the operations reaches, with no floor. -/
def deliverable (ops : Set CrdtOp) : Set OpKey := derivable (causalRules ∅ ops)

/-- What can be delivered at all can be delivered through the least variants. -/
def LeastVariantsSuffice (l : List CrdtOp) : Prop :=
  deliverable {op | op ∈ l} ⊆ deliverable (leastVariants {op | op ∈ l})

structure SameView (n m : CrdtNode) : Prop where
  clock : n.clockMessage = m.clockMessage
  operations : n.operations = m.operations
  equivocations : n.equivocations = m.equivocations

/-- A permutation of the list with arbitrary duplications. -/
def Redelivers (l l' : List CrdtOp) : Prop := l.Subperm l' ∧ ∀ op ∈ l', op ∈ l

theorem Redelivers.mem_iff {l l' : List CrdtOp} (h : Redelivers l l') (op : CrdtOp) :
    op ∈ l' ↔ op ∈ l :=
  ⟨h.2 op, fun hop => h.1.subset hop⟩

/-- Valid operations of one key are equal when neither variant is above the other. -/
theorem eq_of_variant_le {a b : CrdtOp} (ha : CrdtNode.valid a = true)
    (hb : CrdtNode.valid b = true) (hkey : key a = key b)
    (hab : (compare (variant a) (variant b)).isLE = true)
    (hba : (compare (variant b) (variant a)).isLE = true) : a = b := by
  obtain ⟨depsA, hdepsA, -⟩ := valid_iff.mp ha
  obtain ⟨depsB, hdepsB, -⟩ := valid_iff.mp hb
  have hvariant : variant a = variant b :=
    Std.LawfulEqOrd.eq_of_compare (Std.OrientedCmp.isLE_antisymm hab hba)
  exact eq_of_key_of_variant hdepsA hdepsB hkey hvariant

theorem above_empty_of_valid {op : CrdtOp} (h : CrdtNode.valid op = true) :
    (∅ : ClockMap).getD op.origin 0 < op.seq := by
  obtain ⟨_, _, _, hpos, _⟩ := valid_iff.mp h
  simpa using hpos

/-! ## What the delivered set determines -/

section Fresh

variable {l : List CrdtOp} {n : CrdtNode} (h : Delivered ∅ l n)

include h

theorem Delivered.integrated_subset_deliverable :
    n.integratedSet ⊆ deliverable {op | op ∈ l} :=
  h.integrated_sub

theorem Delivered.mem_integrated (o : String) (s : Int) :
    ⟨o, s⟩ ∈ n.integratedSet ↔ 0 < s ∧ s ≤ n.clock.getD o 0 := by
  have hcontiguous := h.inv.contiguous o s
  rwa [h.floor_eq, Std.ExtTreeMap.getD_empty] at hcontiguous

variable (hvalid : ∀ op ∈ l, CrdtNode.valid op = true)

include hvalid

theorem Delivered.stored_iff (k : OpKey) (op : CrdtOp) :
    n.ops[k]? = some op ↔ op ∈ leastVariants {op | op ∈ l} ∧ k = key op := by
  have hleast : ∀ (k : OpKey) (op : CrdtOp), n.ops[k]? = some op →
      op ∈ leastVariants {op | op ∈ l} := by
    intro k op hop
    refine ⟨h.stored_mem k op hop, fun other hother heq => ?_⟩
    have hvalidOther := hvalid other hother
    obtain ⟨least, hleast, hle⟩ :=
      h.stored_le other hother hvalidOther (above_empty_of_valid hvalidOther)
    rw [heq, ← h.inv.keyed k op hop, hop] at hleast
    obtain rfl : op = least := by simpa using hleast
    exact hle
  constructor
  · intro hop
    exact ⟨hleast k op hop, h.inv.keyed k op hop⟩
  · rintro ⟨⟨hop, hmin⟩, rfl⟩
    obtain ⟨least, hstored, hle⟩ :=
      h.stored_le op hop (hvalid op hop) (above_empty_of_valid (hvalid op hop))
    have hkey := h.inv.keyed _ _ hstored
    have hmem := h.stored_mem _ _ hstored
    have heq : least = op :=
      eq_of_variant_le (hvalid least hmem) (hvalid op hop) hkey.symm hle
        (hmin least hmem hkey.symm)
    exact heq ▸ hstored

theorem Delivered.storedSet_eq : n.storedSet = leastVariants {op | op ∈ l} := by
  ext op
  constructor
  · rintro ⟨k, hop⟩
    exact ((h.stored_iff hvalid k op).mp hop).1
  · intro hop
    exact ⟨key op, (h.stored_iff hvalid _ op).mpr ⟨hop, rfl⟩⟩

theorem Delivered.exists_least {op : CrdtOp} (hop : op ∈ l) :
    ∃ least ∈ leastVariants {op | op ∈ l}, key least = key op ∧
      (compare (variant least) (variant op)).isLE = true := by
  obtain ⟨least, hstored, hle⟩ :=
    h.stored_le op hop (hvalid op hop) (above_empty_of_valid (hvalid op hop))
  exact ⟨least, ((h.stored_iff hvalid _ _).mp hstored).1, (h.inv.keyed _ _ hstored).symm, hle⟩

theorem Delivered.deliverable_subset_integrated :
    deliverable (leastVariants {op | op ∈ l}) ⊆ n.integratedSet := by
  have hsub := h.inv.derivable_subset
  rwa [h.floor_eq, h.storedSet_eq hvalid] at hsub

/-- Where the least variants suffice, what is integrated depends on the list alone. -/
theorem Delivered.integratedSet_of_suffice (hsuffice : LeastVariantsSuffice l) :
    n.integratedSet = deliverable {op | op ∈ l} := by
  apply Set.Subset.antisymm
  · exact h.integrated_subset_deliverable
  · calc deliverable {op | op ∈ l}
        ⊆ deliverable (leastVariants {op | op ∈ l}) := hsuffice
      _ ⊆ n.integratedSet := h.deliverable_subset_integrated hvalid

theorem Delivered.mem_equivocated (k : OpKey) :
    k ∈ n.equivocated ↔ ∃ a ∈ l, ∃ b ∈ l, key a = k ∧ key b = k ∧ a ≠ b := by
  constructor
  · exact h.equivocated_sound k
  · rintro ⟨a, ha, b, hb, rfl, hkey, hne⟩
    rcases h.equivocated_complete a ha (hvalid a ha) (above_empty_of_valid (hvalid a ha))
      with hmem | hstoredA
    · exact hmem
    rcases h.equivocated_complete b hb (hvalid b hb) (above_empty_of_valid (hvalid b hb))
      with hmem | hstoredB
    · exact hkey ▸ hmem
    rw [hkey, hstoredA] at hstoredB
    exact absurd (by simpa using hstoredB) hne

end Fresh

/-- Replicas that were delivered the same set and integrated the same keys agree. -/
theorem Delivered.sameView {l l' : List CrdtOp} {n m : CrdtNode} (hn : Delivered ∅ l n)
    (hm : Delivered ∅ l' m) (hmem : ∀ op, op ∈ l' ↔ op ∈ l)
    (hvalid : ∀ op ∈ l, CrdtNode.valid op = true)
    (hintegrated : n.integratedSet = m.integratedSet) : SameView n m := by
  have hvalid' : ∀ op ∈ l', CrdtNode.valid op = true := fun op hop => hvalid op ((hmem op).mp hop)
  have hset : {op | op ∈ l'} = {op | op ∈ l} := Set.ext hmem
  have hops : n.ops = m.ops := by
    ext k op
    rw [hn.stored_iff hvalid, hm.stored_iff hvalid', hset]
  have hclock : n.clock = m.clock := by
    refine hn.inv.clock_canonical.ext hm.inv.clock_canonical fun o => ?_
    have hiff : ∀ s, 0 < s ∧ s ≤ n.clock.getD o 0 ↔ 0 < s ∧ s ≤ m.clock.getD o 0 := by
      intro s
      rw [← hn.mem_integrated, ← hm.mem_integrated, hintegrated]
    have hposN := hn.inv.clock_canonical.getD_nonneg o
    have hposM := hm.inv.clock_canonical.getD_nonneg o
    have hle := hiff (n.clock.getD o 0)
    have hge := hiff (m.clock.getD o 0)
    omega
  have hkeys : n.integrated = m.integrated :=
    Std.ExtTreeSet.ext_mem fun k => Set.ext_iff.mp hintegrated k
  have hequivocated : n.equivocated = m.equivocated := by
    ext k
    simp only [hn.mem_equivocated hvalid, hm.mem_equivocated hvalid', hmem]
  refine ⟨?_, ?_, ?_⟩
  · rw [CrdtNode.clockMessage, hclock, CrdtNode.clockMessage]
  · rw [CrdtNode.operations, hops, hkeys, CrdtNode.operations]
  · rw [CrdtNode.equivocations, hequivocated, CrdtNode.equivocations]

theorem Delivered.integratedSet_eq {l l' : List CrdtOp} {n m : CrdtNode}
    (hn : Delivered ∅ l n) (hm : Delivered ∅ l' m) (hclock : n.clockMessage = m.clockMessage) :
    n.integratedSet = m.integratedSet := by
  have heq : n.clock = m.clock := by
    have hround := clockMap_clockValue hn.inv.clock_canonical
    rw [← CrdtNode.clockMessage, hclock, CrdtNode.clockMessage,
      clockMap_clockValue hm.inv.clock_canonical] at hround
    exact (Option.some.inj hround).symm
  ext ⟨o, s⟩
  rw [hn.mem_integrated, hm.mem_integrated, heq]

/-! ## Runs of deliveries -/

theorem delivered_fresh {maxPending : Nat} {l : List CrdtOp}
    (hfree : PendingBoundFree (emitted maxPending (deliveries l))) :
    Delivered ∅ l (run maxPending (deliveries l)) :=
  delivered_run (b := none) hfree

theorem apply_size_le (n : CrdtNode) (op : CrdtOp) :
    (n.apply op).1.ops.size ≤ n.ops.size + 1 := by
  have hspec := n.apply_spec op
  generalize n.apply op = result at hspec ⊢
  cases hspec with
  | equivocation _ previous hop _ =>
      rw [CrdtNode.drain_ops, CrdtNode.settle_ops_size hop]
      omega
  | stored _ _ _ =>
      rw [CrdtNode.drain_ops, CrdtNode.store, Std.ExtTreeMap.size_insert]
      split <;> omega
  | _ => exact Nat.le_succ _

theorem run_size_le (maxPending : Nat) (l : List CrdtOp) :
    (run maxPending (deliveries l)).ops.size ≤ l.length := by
  induction l using List.reverseRecOn with
  | nil => exact Nat.le_refl 0
  | append_singleton front op ih =>
      rw [run, deliveries, List.map_append, List.map_singleton, after_concat, List.length_append]
      exact (apply_size_le _ op).trans (Nat.succ_le_succ ih)

theorem pendingBoundFree_of_length_le {maxPending : Nat} {l : List CrdtOp}
    (hlength : l.length ≤ maxPending) : PendingBoundFree (emitted maxPending (deliveries l)) := by
  induction l using List.reverseRecOn with
  | nil => simp [PendingBoundFree, emitted, deliveries, outputs]
  | append_singleton front op ih =>
      rw [List.length_append, List.length_singleton] at hlength
      have hsize := run_size_le maxPending front
      have hbound := run_maxPending maxPending (deliveries front)
      have hlast : PendingBoundFree ((run maxPending (deliveries front)).apply op).2 := by
        have hspec := (run maxPending (deliveries front)).apply_spec op
        generalize (run maxPending (deliveries front)).apply op = result at hspec ⊢
        intro out hout
        cases hspec with
        | overflow _ _ _ hfull => omega
        | equivocation _ _ _ _ =>
            dsimp only at hout
            split at hout
            · simp at hout
            · obtain rfl := List.mem_singleton.mp hout
              rfl
        | terminal _ =>
            obtain rfl := List.mem_singleton.mp hout
            rfl
        | invalid _ _ _ =>
            obtain rfl := List.mem_singleton.mp hout
            rfl
        | _ => simp at hout
      intro out hout
      rw [emitted, deliveries, List.map_append, outputs_append, List.flatten_append] at hout
      rcases List.mem_append.mp hout with hout | hout
      · exact ih (by omega) out hout
      · rw [List.map_singleton, outputs, outputs, List.flatten_singleton] at hout
        exact hlast out hout

theorem apply_integrated_mono {n : CrdtNode} (hn : n.Inv) (op : CrdtOp) {k : OpKey}
    (hk : k ∈ n.integrated) : k ∈ (n.apply op).1.integrated := by
  have hspec := n.apply_spec op
  generalize n.apply op = result at hspec ⊢
  cases hspec with
  | equivocation hadmits previous _ _ =>
      exact CrdtNode.drain_integrated (hn.toWf.settle hadmits previous) hk
  | stored hadmits _ _ => exact CrdtNode.drain_integrated (hn.toWf.store hadmits) hk
  | _ => exact hk

theorem run_integrated_mono {maxPending : Nat} (front back : List CrdtOp) {k : OpKey}
    (hk : k ∈ (run maxPending (deliveries front)).integrated) :
    k ∈ (run maxPending (deliveries (front ++ back))).integrated := by
  induction back using List.reverseRecOn with
  | nil => simpa using hk
  | append_singleton back op ih =>
      rw [← List.append_assoc, run, deliveries, List.map_append, List.map_singleton, after_concat]
      exact apply_integrated_mono (run_inv maxPending _) op ih

/-- A delivery integrates only what the store it leaves can deliver. -/
theorem apply_integrated_subset {n : CrdtNode} (hn : n.Inv) (op : CrdtOp) {ops : Set CrdtOp}
    {s : Set OpKey} (hs : Closed (causalRules n.floor ops) s)
    (hstored : (n.apply op).1.storedSet ⊆ ops) (hsub : n.integratedSet ⊆ s) :
    (n.apply op).1.integratedSet ⊆ s := by
  have hspec := n.apply_spec op
  generalize n.apply op = result at hspec hstored ⊢
  cases hspec with
  | equivocation hadmits previous _ _ =>
      refine CrdtNode.drain_subset_closed (hn.toWf.settle hadmits previous) ?_ hs hsub
      simpa only [CrdtNode.storedSet, CrdtNode.drain_ops] using hstored
  | stored hadmits _ _ =>
      refine CrdtNode.drain_subset_closed (hn.toWf.store hadmits) ?_ hs hsub
      simpa only [CrdtNode.storedSet, CrdtNode.drain_ops] using hstored
  | _ => exact hsub

/-! ## Two orders that disagree -/

section Orders

variable {l : List CrdtOp} (hvalid : ∀ op ∈ l, CrdtNode.valid op = true)

theorem delivered_length (l : List CrdtOp) : Delivered ∅ l (run l.length (deliveries l)) :=
  delivered_fresh (pendingBoundFree_of_length_le (Nat.le_refl _))

include hvalid

/-- With the least variants first, only they are ever stored. -/
theorem integrated_of_least_first {least : List CrdtOp} {maxPending : Nat}
    (hleast : ∀ op, op ∈ least ↔ op ∈ leastVariants {op | op ∈ l})
    (hbound : (least ++ l).length ≤ maxPending) :
    (run maxPending (deliveries (least ++ l))).integratedSet ⊆
      deliverable (leastVariants {op | op ∈ l}) := by
  have hfront : ∀ front back, front ++ back = least ++ l →
      (run maxPending (deliveries front)).integratedSet ⊆
        deliverable (leastVariants {op | op ∈ l}) := by
    intro front
    induction front using List.reverseRecOn with
    | nil =>
        intro _ _ k hk
        exact absurd hk (by simp [run, deliveries, CrdtNode.integratedSet, CrdtNode.new])
    | append_singleton front op ih =>
        intro back hsplit
        have hbefore := ih (op :: back) (by rw [← hsplit, List.append_assoc]; rfl)
        have hmem : ∀ a ∈ front ++ [op], a ∈ l := by
          intro a ha
          have ha' : a ∈ least ++ l := hsplit ▸ List.mem_append_left _ ha
          exact (List.mem_append.mp ha').elim (fun h => ((hleast a).mp h).1) id
        have hlength : (front ++ [op]).length ≤ maxPending := by
          have htotal := congrArg List.length hsplit
          rw [List.length_append] at htotal
          omega
        have hdelivered := delivered_fresh (pendingBoundFree_of_length_le hlength)
        have hstored : (run maxPending (deliveries (front ++ [op]))).storedSet ⊆
            leastVariants {op | op ∈ l} := by
          rw [hdelivered.storedSet_eq fun a ha => hvalid a (hmem a ha)]
          rintro a ⟨ha, hmin⟩
          -- either the least variants are still coming, or all of them have come
          rcases List.append_eq_append_iff.mp hsplit with ⟨rest, hrest, -⟩ | ⟨rest, hrest, -⟩
          · exact (hleast a).mp (hrest ▸ List.mem_append_left rest ha)
          · refine ⟨hmem a ha, fun other hother heq => ?_⟩
            obtain ⟨low, hlow, hkey, hle⟩ := (delivered_length l).exists_least hvalid hother
            have hcome : low ∈ front ++ [op] :=
              hrest ▸ List.mem_append_left rest ((hleast low).mpr hlow)
            exact Std.TransCmp.isLE_trans (hmin low hcome (hkey.trans heq)) hle
        have hinv := run_inv maxPending (deliveries front)
        have hshort : front.length ≤ maxPending := by
          rw [List.length_append] at hlength
          omega
        have hfloor := (delivered_fresh (pendingBoundFree_of_length_le hshort)).floor_eq
        rw [run, deliveries, List.map_append, List.map_singleton, after_concat] at hstored ⊢
        refine apply_integrated_subset hinv op ?_ hstored hbefore
        rw [hfloor]
        exact derivable_closed _
  exact hfront _ [] (List.append_nil _)

/-- An operation that the other least variants make ready is integrated when it comes
before the least variant of its own key. -/
theorem integrated_of_ready {least : List CrdtOp} {maxPending : Nat}
    (hleast : ∀ op, op ∈ least ↔ op ∈ leastVariants {op | op ∈ l}) {op : CrdtOp} (hop : op ∈ l)
    (hpremises : (causalRule ∅ op).premises ⊆ deliverable (leastVariants {op | op ∈ l}))
    (hnew : key op ∉ deliverable (leastVariants {op | op ∈ l}))
    (hbound : (least ++ [op]).length ≤ maxPending) :
    key op ∈ (run maxPending
      (deliveries (least.filter (fun a => key a ≠ key op) ++ [op]))).integratedSet := by
  set others := least.filter fun a => key a ≠ key op with hothers
  have hmemOthers : ∀ a, a ∈ others ↔ a ∈ leastVariants {op | op ∈ l} ∧ key a ≠ key op := by
    intro a
    rw [hothers, List.mem_filter, hleast, decide_eq_true_eq]
  have hlength : (others ++ [op]).length ≤ maxPending := by
    have hshort : others.length ≤ least.length := List.length_filter_le _ _
    rw [List.length_append, List.length_singleton] at hbound ⊢
    omega
  have h := delivered_fresh (pendingBoundFree_of_length_le hlength)
  set n := run maxPending (deliveries (others ++ [op]))
  have hl : ∀ a ∈ others ++ [op], a ∈ l := by
    intro a ha
    rcases List.mem_append.mp ha with ha | ha
    · exact ((hmemOthers a).mp ha).1.1
    · exact List.mem_singleton.mp ha ▸ hop
  -- the list has one operation to a key, so all of it is stored
  have hunique : ∀ a ∈ others ++ [op], ∀ b ∈ others ++ [op], key b = key a → b = a := by
    intro a ha b hb hkey
    rcases List.mem_append.mp ha with ha | ha <;> rcases List.mem_append.mp hb with hb | hb
    · obtain ⟨⟨hal, hamin⟩, -⟩ := (hmemOthers a).mp ha
      obtain ⟨⟨hbl, hbmin⟩, -⟩ := (hmemOthers b).mp hb
      exact eq_of_variant_le (hvalid b hbl) (hvalid a hal) hkey (hbmin a hal hkey.symm)
        (hamin b hbl hkey)
    · obtain rfl := List.mem_singleton.mp hb
      exact absurd hkey.symm ((hmemOthers a).mp ha).2
    · obtain rfl := List.mem_singleton.mp ha
      exact absurd hkey ((hmemOthers b).mp hb).2
    · exact (List.mem_singleton.mp hb).trans (List.mem_singleton.mp ha).symm
  have hstored : ∀ a ∈ others ++ [op], a ∈ n.storedSet := by
    intro a ha
    have hva := hvalid a (hl a ha)
    exact ⟨key a, h.stored_of_unique ha hva (above_empty_of_valid hva) (hunique a ha)⟩
  have hclosed := h.inv.integrated_closed
  rw [h.floor_eq] at hclosed
  have hrules : {r ∈ causalRules ∅ (leastVariants {op | op ∈ l}) | r.conclusion ≠ key op} ⊆
      causalRules ∅ n.storedSet := by
    rintro r ⟨⟨a, ha, habove, rfl⟩, hne⟩
    exact ⟨a, hstored a (List.mem_append_left _ ((hmemOthers a).mpr ⟨ha, hne⟩)), habove, rfl⟩
  have hothersIn : deliverable (leastVariants {op | op ∈ l}) ⊆ n.integratedSet :=
    (derivable_avoiding hnew).trans (derivable_subset (hclosed.mono hrules))
  exact hclosed (causalRule ∅ op) ⟨op, hstored op (by simp),
    above_empty_of_valid (hvalid op hop), rfl⟩ (hpremises.trans hothersIn)

end Orders

theorem Delivered.sameView_of_suffice {l l' : List CrdtOp} {n m : CrdtNode}
    (hn : Delivered ∅ l n) (hm : Delivered ∅ l' m) (hl' : Redelivers l l')
    (hvalid : ∀ op ∈ l, CrdtNode.valid op = true) (hsuffice : LeastVariantsSuffice l) :
    SameView n m := by
  have hset : {op | op ∈ l'} = {op | op ∈ l} := Set.ext hl'.mem_iff
  have hvalid' : ∀ op ∈ l', CrdtNode.valid op = true := fun op hop => hvalid op (hl'.2 op hop)
  have hsuffice' : LeastVariantsSuffice l' := by
    rwa [LeastVariantsSuffice, hset]
  apply hn.sameView hm hl'.mem_iff hvalid
  calc n.integratedSet
      = deliverable {op | op ∈ l} := hn.integratedSet_of_suffice hvalid hsuffice
    _ = deliverable {op | op ∈ l'} := by rw [hset]
    _ = m.integratedSet := (hm.integratedSet_of_suffice hvalid' hsuffice').symm

/-- **Strong convergence.**  Two replicas that apply a list of valid operations and any
permutation of it with duplications, without dropping one, agree for certain exactly
when the least variants suffice. -/
theorem converges_iff (l : List CrdtOp) (hvalid : ∀ op ∈ l, CrdtNode.valid op = true) :
    (∀ (maxPending maxPending' : Nat) (l' : List CrdtOp), Redelivers l l' →
        PendingBoundFree (emitted maxPending (deliveries l)) →
        PendingBoundFree (emitted maxPending' (deliveries l')) →
        SameView (run maxPending (deliveries l)) (run maxPending' (deliveries l'))) ↔
      LeastVariantsSuffice l := by
  constructor
  · intro hsame
    by_contra hnot
    obtain ⟨r, ⟨op, hop, -, rfl⟩, hpremises, hnew⟩ := exists_ready_rule hnot
    classical
    let least := l.filter fun a => decide (a ∈ leastVariants {op | op ∈ l})
    have hleast : ∀ a, a ∈ least ↔ a ∈ leastVariants {op | op ∈ l} := by
      intro a
      rw [List.mem_filter, decide_eq_true_eq]
      exact and_iff_right_of_imp fun ha => ha.1
    have hredelivers : ∀ front, (∀ a ∈ front, a ∈ l) → Redelivers l (front ++ l) := by
      intro front hfront
      refine ⟨(List.sublist_append_right front l).subperm, fun a ha => ?_⟩
      exact (List.mem_append.mp ha).elim (hfront a) id
    let first := least ++ l
    let second := (least.filter (fun a => key a ≠ key op) ++ [op]) ++ l
    let bound := (least ++ [op] ++ l).length
    have hfirst : first.length ≤ bound := by
      simp only [first, bound, List.length_append, List.length_singleton]
      omega
    have hshort := List.length_filter_le (fun a => decide (key a ≠ key op)) least
    have hsecond : second.length ≤ bound := by
      simp only [second, bound, List.length_append, List.length_singleton]
      omega
    have hrunFirst := delivered_fresh (pendingBoundFree_of_length_le hfirst)
    have hrunSecond := delivered_fresh (pendingBoundFree_of_length_le hsecond)
    have hviewFirst := hsame l.length bound first
      (hredelivers least fun a ha => ((hleast a).mp ha).1)
      (pendingBoundFree_of_length_le (Nat.le_refl _)) (pendingBoundFree_of_length_le hfirst)
    have hviewSecond := hsame l.length bound second
      (hredelivers _ fun a ha => by
        rcases List.mem_append.mp ha with ha | ha
        · exact ((hleast a).mp (List.mem_filter.mp ha).1).1
        · exact List.mem_singleton.mp ha ▸ hop)
      (pendingBoundFree_of_length_le (Nat.le_refl _)) (pendingBoundFree_of_length_le hsecond)
    have hagree := hrunFirst.integratedSet_eq hrunSecond
      (hviewFirst.clock.symm.trans hviewSecond.clock)
    have hin : key op ∈ (run bound (deliveries second)).integratedSet :=
      run_integrated_mono _ l (integrated_of_ready hvalid hleast hop hpremises hnew (by
        simp only [bound, List.length_append, List.length_singleton]
        omega))
    exact hnew (integrated_of_least_first hvalid hleast hfirst (hagree ▸ hin))
  · intro hsuffice maxPending maxPending' l' hl' hfree hfree'
    exact (delivered_fresh hfree).sameView_of_suffice (delivered_fresh hfree') hl' hvalid hsuffice

/-- The order that integrates a key through its larger variant and the order that never
integrates it. -/
theorem variant_order_diverges :
    let c : CrdtOp := ⟨"c", 1, ⟨[]⟩, []⟩
    let low : CrdtOp := ⟨"a", 1, ⟨[⟨"b", 5⟩]⟩, []⟩
    let high : CrdtOp := ⟨"a", 1, ⟨[⟨"c", 1⟩]⟩, []⟩
    (∀ op ∈ [c, high, low], CrdtNode.valid op = true) ∧
      Redelivers [c, high, low] [c, low, high] ∧
      PendingBoundFree (emitted 8 (deliveries [c, high, low])) ∧
      PendingBoundFree (emitted 8 (deliveries [c, low, high])) ∧
      ¬ SameView (run 8 (deliveries [c, high, low])) (run 8 (deliveries [c, low, high])) := by
  refine ⟨by decide, ⟨by decide, by decide⟩, by decide, by decide, fun hsame => ?_⟩
  exact absurd hsame.clock (by decide)

theorem converges_iff_three :
    ¬ LeastVariantsSuffice
      [⟨"c", 1, ⟨[]⟩, []⟩, ⟨"a", 1, ⟨[⟨"c", 1⟩]⟩, []⟩, ⟨"a", 1, ⟨[⟨"b", 5⟩]⟩, []⟩] := by
  intro hsuffice
  have hsame := (converges_iff _ (by decide)).mpr hsuffice 8 8
    [⟨"c", 1, ⟨[]⟩, []⟩, ⟨"a", 1, ⟨[⟨"b", 5⟩]⟩, []⟩, ⟨"a", 1, ⟨[⟨"c", 1⟩]⟩, []⟩]
    ⟨by decide, by decide⟩ (by decide) (by decide)
  exact absurd hsame.clock (by decide)

end TautShape.Crdt
