import TautShape.Crdt.Delivery
/-!
# What a replica integrates

The declarative reading of causal integration: among the operations delivered, the
least set that holds an operation as soon as its predecessor and its dependencies
are in the set or below the floor.
-/

namespace TautShape.Crdt

open TautShape.Lib

/-- The sequence number lies below the floor or belongs to an operation of the set. -/
def Reached (floor : ClockMap) (included : Set CrdtOp) (o : String) (s : Int) : Prop :=
  s ≤ floor.getD o 0 ∨ ∃ op ∈ included, op.origin = o ∧ op.seq = s

/-- The set holds every delivered operation whose predecessor and dependencies it reaches. -/
def CausallyClosed (floor : ClockMap) (delivered : List CrdtOp) (included : Set CrdtOp) : Prop :=
  ∀ op ∈ delivered, floor.getD op.origin 0 < op.seq →
    Reached floor included op.origin (op.seq - 1) →
    (∀ e ∈ op.deps.entries, Reached floor included e.origin e.seq) → op ∈ included

structure CausalSet (floor : ClockMap) (delivered : List CrdtOp) (included : Set CrdtOp) :
    Prop where
  member : ∀ op ∈ included, op ∈ delivered
  above : ∀ op ∈ included, floor.getD op.origin 0 < op.seq
  closed : CausallyClosed floor delivered included

theorem premises_subset_iff {floor : ClockMap} {included : Set CrdtOp} {op : CrdtOp} :
    (causalRule floor op).premises ⊆ key '' included ↔
      Reached floor included op.origin (op.seq - 1) ∧
        ∀ e ∈ op.deps.entries, Reached floor included e.origin e.seq := by
  have hkey : ∀ o s, (floor.getD o 0 < s → (⟨o, s⟩ : OpKey) ∈ key '' included) ↔
      Reached floor included o s := by
    intro o s
    rw [Reached, ← not_lt, ← imp_iff_not_or]
    refine imp_congr_right fun _ => ?_
    simp [key]
  constructor
  · intro h
    exact ⟨(hkey _ _).mp fun habove => h ⟨habove, .inl rfl⟩,
      fun e he => (hkey _ _).mp fun habove => h ⟨habove, .inr ⟨e, he, rfl⟩⟩⟩
  · rintro ⟨hprevious, hdeps⟩ k ⟨habove, rfl | ⟨e, he, rfl⟩⟩
    · exact (hkey _ _).mpr hprevious habove
    · exact (hkey _ _).mpr (hdeps e he) habove

theorem CausalSet.keys_closed {floor : ClockMap} {delivered : List CrdtOp}
    {included : Set CrdtOp} (h : CausalSet floor delivered included) :
    Closed (causalRules floor {op | op ∈ delivered}) (key '' included) := by
  rintro r ⟨op, hop, habove, rfl⟩ hpremises
  obtain ⟨hprevious, hdeps⟩ := premises_subset_iff.mp hpremises
  exact ⟨op, h.closed op hop habove hprevious hdeps, rfl⟩

section OneVariantEach

variable {f : ClockMap} {l : List CrdtOp} {n : CrdtNode} (h : Delivered f l n)
  (hvalid : ∀ op ∈ l, CrdtNode.valid op = true)
  (hkeys : ∀ a ∈ l, ∀ b ∈ l, key a = key b → a = b)

include h

theorem Delivered.mem_operations {op : CrdtOp} (hop : op ∈ n.operations) :
    op ∈ l ∧ f.getD op.origin 0 < op.seq ∧ key op ∈ n.integratedSet ∧
      n.ops[key op]? = some op := by
  obtain ⟨k, hk, hstored⟩ := CrdtNode.mem_operations.mp hop
  obtain rfl := h.inv.keyed k op hstored
  exact ⟨h.stored_mem _ _ hstored, h.floor_eq ▸ h.inv.above _ _ hstored, hk, hstored⟩

theorem Delivered.keys_operations : key '' {op | op ∈ n.operations} = n.integratedSet := by
  ext k
  constructor
  · rintro ⟨op, hop, rfl⟩
    exact (h.mem_operations hop).2.2.1
  · intro hk
    obtain ⟨op, hop⟩ := exists_getElem?_of_mem (h.inv.stored k hk)
    exact ⟨op, CrdtNode.mem_operations.mpr ⟨k, hk, hop⟩, (h.inv.keyed k op hop).symm⟩

include hkeys

theorem Delivered.operations_subset {included : Set CrdtOp} (hset : CausalSet f l included) :
    {op | op ∈ n.operations} ⊆ included := by
  intro op hop
  obtain ⟨hmem, -, hk, -⟩ := h.mem_operations hop
  have hderivable := derivable_subset hset.keys_closed (h.integrated_sub hk)
  obtain ⟨other, hother, heq⟩ := hderivable
  exact hkeys other (hset.member other hother) op hmem heq ▸ hother

theorem Delivered.equivocations_nil : n.equivocations = [] := by
  refine List.eq_nil_iff_forall_not_mem.mpr fun k hk => ?_
  obtain ⟨a, ha, b, hb, hka, hkb, hne⟩ :=
    h.equivocated_sound k (Std.ExtTreeSet.mem_toList.mp hk)
  exact hne (hkeys a ha b hb (hka.trans hkb.symm))

include hvalid

theorem Delivered.stored {op : CrdtOp} (hop : op ∈ l) (habove : f.getD op.origin 0 < op.seq) :
    n.ops[key op]? = some op :=
  h.stored_of_unique hop (hvalid op hop) habove fun other hother heq =>
    hkeys other hother op hop heq

theorem Delivered.causalSet : CausalSet f l {op | op ∈ n.operations} := by
  refine ⟨fun op hop => (h.mem_operations hop).1, fun op hop => (h.mem_operations hop).2.1, ?_⟩
  intro op hop habove hprevious hdeps
  have hstored := h.stored hvalid hkeys hop habove
  have hpremises := premises_subset_iff.mpr ⟨hprevious, hdeps⟩
  rw [h.keys_operations] at hpremises
  have hk : key op ∈ n.integratedSet := by
    refine h.inv.integrated_closed (causalRule n.floor op) ⟨op, ⟨_, hstored⟩, ?_, rfl⟩ ?_
    · rwa [h.floor_eq]
    · rwa [h.floor_eq]
  exact CrdtNode.mem_operations.mpr ⟨key op, hk, hstored⟩

end OneVariantEach

/-- The clock of an origin is its floor or the greatest integrated sequence number. -/
theorem CrdtNode.Wf.clock_isGreatest {n : CrdtNode} (hn : n.Wf) (o : String) :
    IsGreatest (insert (n.floor.getD o 0) {s | ∃ op ∈ n.operations, op.origin = o ∧ op.seq = s})
      (n.clock.getD o 0) := by
  have hmem : ∀ s, (∃ op ∈ n.operations, op.origin = o ∧ op.seq = s) ↔
      n.floor.getD o 0 < s ∧ s ≤ n.clock.getD o 0 := by
    intro s
    rw [← hn.contiguous]
    constructor
    · rintro ⟨op, hop, rfl, rfl⟩
      obtain ⟨k, hk, hstored⟩ := CrdtNode.mem_operations.mp hop
      have hkey : k = ⟨op.origin, op.seq⟩ := hn.keyed k op hstored
      exact hkey ▸ hk
    · intro hk
      obtain ⟨op, hop⟩ := exists_getElem?_of_mem (hn.stored _ hk)
      obtain ⟨horigin, hseq⟩ := OpKey.mk.inj (hn.keyed _ op hop)
      exact ⟨op, CrdtNode.mem_operations.mpr ⟨_, hk, hop⟩, horigin.symm, hseq.symm⟩
  have hfloor := hn.floor_le o
  constructor
  · rw [Set.mem_insert_iff, Set.mem_ofPred_eq, hmem]
    omega
  · rintro s (rfl | hs)
    · exact hfloor
    · exact ((hmem s).mp hs).2

/-- **Causal integration.**  Deliveries in any order, none dropped and with one
operation to a key, leave exactly the least causally closed set integrated. -/
theorem integration_least (maxPending : Nat) (b : Option CrdtBootstrap)
    (delivered : List CrdtOp) (hvalid : ∀ op ∈ delivered, CrdtNode.valid op = true)
    (hkeys : ∀ a ∈ delivered, ∀ c ∈ delivered, key a = key c → a = c)
    (hfree : PendingBoundFree
      (emitted maxPending (bootstrapInputs b ++ deliveries delivered))) :
    let n := run maxPending (bootstrapInputs b ++ deliveries delivered)
    let floor := bootstrapClock b
    IsLeast {included | CausalSet floor delivered included} {op | op ∈ n.operations} ∧
      clockMap n.clockMessage = some n.clock ∧
      (∀ o, IsGreatest
        (insert (floor.getD o 0) {s | ∃ op ∈ n.operations, op.origin = o ∧ op.seq = s})
        (n.clock.getD o 0)) ∧
      n.equivocations = [] := by
  intro n floor
  have h : Delivered floor delivered n := delivered_run hfree
  refine ⟨⟨h.causalSet hvalid hkeys, fun included hset => ?_⟩,
    clockMap_clockValue h.inv.clock_canonical, fun o => ?_, h.equivocations_nil hkeys⟩
  · exact h.operations_subset hkeys hset
  · rw [← h.floor_eq]
    exact h.inv.clock_isGreatest o

/-- A chain delivered backwards over a bootstrap, with one operation that stays behind. -/
theorem integration_least_reverse_chain :
    let b : CrdtBootstrap := ⟨⟨[⟨"b", 1⟩]⟩, []⟩
    let first : CrdtOp := ⟨"a", 1, ⟨[⟨"b", 1⟩]⟩, []⟩
    let second : CrdtOp := ⟨"a", 2, ⟨[]⟩, []⟩
    let waiting : CrdtOp := ⟨"c", 1, ⟨[⟨"b", 2⟩]⟩, []⟩
    let n := run 3 (bootstrapInputs (some b) ++ deliveries [waiting, second, first, second])
    n.operations = [first, second] ∧
      IsLeast {included | CausalSet (bootstrapClock (some b)) [waiting, second, first, second]
        included} {op | op ∈ n.operations} :=
  ⟨by decide, (integration_least 3 _ _ (by decide) (by decide) (by decide)).1⟩

end TautShape.Crdt
