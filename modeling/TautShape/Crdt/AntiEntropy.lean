import TautShape.Crdt.Sync
import TautShape.Crdt.Delivery
/-!
# Anti-entropy with a fresh replica

A server that never saw two operations for one key integrated each of its
operations when the earlier ones covered it.  So as long as a replica that holds
only operations of the server lacks one, some operation of the server comes next
for it: every round of the read and apply loop integrates at least one, even when
the pending bound drops all the others.
-/

namespace TautShape.Crdt

open TautShape.Lib

def appliedOps (inputs : List CrdtInput) : List CrdtOp :=
  inputs.filterMap fun
    | .apply op => some op
    | _ => none

theorem mem_appliedOps {inputs : List CrdtInput} {op : CrdtOp} :
    op ∈ appliedOps inputs ↔ .apply op ∈ inputs := by
  rw [appliedOps, List.mem_filterMap]
  constructor
  · rintro ⟨input, hinput, hop⟩
    cases input <;> simp at hop
    exact hop ▸ hinput
  · intro hop
    exact ⟨.apply op, hop, rfl⟩

/-- No key was delivered with two different operations. -/
def OneOpPerKey (inputs : List CrdtInput) : Prop :=
  ∀ a ∈ appliedOps inputs, ∀ b ∈ appliedOps inputs, key a = key b → a = b

instance (inputs : List CrdtInput) : Decidable (OneOpPerKey inputs) :=
  inferInstanceAs (Decidable (∀ a ∈ appliedOps inputs, _))

/-! ## The server -/

namespace CrdtNode

/-- The integrated operations deliver their own keys in some causal order. -/
def Grounded (n : CrdtNode) : Prop :=
  n.integratedSet ⊆ derivable (causalRules n.floor {op | op ∈ n.operations})

theorem Grounded.drain {n : CrdtNode} (hn : Wf n) (h : n.Grounded) : n.drain.Grounded := by
  refine drain_induction hn h ?_
  rintro m m' hm hgrounded ⟨k, op, hop, hnew, hready⟩
  obtain rfl := hm.keyed k op hop
  have hmono : {a | a ∈ m.operations} ⊆ {a | a ∈ (m.integrate (key op)).operations} := by
    intro a ha
    obtain ⟨k', hk', ha'⟩ := mem_operations.mp ha
    refine mem_operations.mpr ⟨k', ?_, ?_⟩
    · rw [integrate_eq hop]
      exact (mem_insert_set _ _ _).mpr (.inr hk')
    · rwa [integrate_eq hop]
  have hgrown : m.integratedSet ⊆
      derivable (causalRules m.floor {a | a ∈ (m.integrate (key op)).operations}) :=
    hgrounded.trans (derivable_mono (causalRules_mono hmono))
  have hself : op ∈ (m.integrate (key op)).operations := by
    refine mem_operations.mpr ⟨key op, ?_, ?_⟩
    · rw [integrate_eq hop]
      exact (mem_insert_set _ _ _).mpr (.inl rfl)
    · rwa [integrate_eq hop]
  have hpremises := (ready_iff_premises hm (hm.all_valid _ op hop)).mp hready
  have hkey : key op ∈
      derivable (causalRules m.floor {a | a ∈ (m.integrate (key op)).operations}) := by
    refine derivable_closed _ (causalRule m.floor op) ?_ (hpremises.trans hgrown)
    exact ⟨op, hself, hm.above _ op hop, rfl⟩
  have hfloor : (m.integrate (key op)).floor = m.floor := by rw [integrate_eq hop]
  rw [Grounded, hfloor]
  intro k' hk'
  have hk' : k' ∈ (m.integrate (key op)).integrated := hk'
  rw [integrate_eq hop] at hk'
  rcases (mem_insert_set _ _ _).mp hk' with rfl | hk'
  · exact hkey
  · exact hgrown hk'

theorem Grounded.store {n : CrdtNode} (hn : Wf n) {op : CrdtOp} (h : n.Grounded)
    (hop : n.ops[key op]? = none) : (n.store op).Grounded := by
  have hsame : (n.store op).operations = n.operations := by
    refine List.filterMap_congr fun k hk => ?_
    have hne : key op ≠ k := by
      rintro rfl
      obtain ⟨held, hheld⟩ := exists_getElem?_of_mem (hn.stored _ (Std.ExtTreeSet.mem_toList.mp hk))
      simp [hop] at hheld
    rw [CrdtNode.store, getElem?_insert, if_neg hne]
  rw [Grounded, hsame]
  exact h

end CrdtNode

theorem run_stored_mem (maxPending : Nat) (inputs : List CrdtInput) (k : OpKey) (op : CrdtOp)
    (hop : (run maxPending inputs).ops[k]? = some op) : op ∈ appliedOps inputs := by
  rw [mem_appliedOps]
  refine after_history CrdtNode.handle (s := CrdtNode.new maxPending) (P := fun front n =>
    ∀ (k : OpKey) (op : CrdtOp), n.ops[k]? = some op → .apply op ∈ front) inputs ?_ ?_ k op hop
  · simp [CrdtNode.new]
  · intro front input _ hfront k a ha
    have hold : ∀ b, .apply b ∈ front → CrdtInput.apply b ∈ front ++ [input] :=
      fun b hb => List.mem_append_left _ hb
    cases input with
    | apply new =>
        rw [CrdtNode.handle_apply] at ha
        by_cases hne : key new = k
        · generalize after CrdtNode.handle (CrdtNode.new maxPending) front = n at ha hfront
          have hspec := n.apply_spec new
          generalize n.apply new = result at hspec ha
          cases hspec with
          | equivocation _ previous _ _ =>
              rw [CrdtNode.drain_ops, CrdtNode.settle_getElem?] at ha
              split at ha
              · simp_all
              · exact hold a (hfront k a ha)
          | stored _ _ _ =>
              rw [CrdtNode.drain_ops, CrdtNode.store, getElem?_insert, if_pos hne] at ha
              simp_all
          | _ => exact hold a (hfront k a ha)
        · rw [CrdtNode.apply_ops_other _ hne] at ha
          exact hold a (hfront k a ha)
    | installBootstrap b =>
        rw [CrdtNode.handle_installBootstrap] at ha
        generalize after CrdtNode.handle (CrdtNode.new maxPending) front = n at ha hfront
        have hspec := n.installBootstrap_spec b
        generalize n.installBootstrap b = result at hspec ha
        cases hspec <;> exact hold a (hfront k a ha)
    | «seal» =>
        simp only [CrdtNode.handle] at ha
        split at ha <;> exact hold a (hfront k a ha)
    | close error =>
        simp only [CrdtNode.handle] at ha
        split at ha <;> exact hold a (hfront k a ha)
    | read request => exact hold a (hfront k a ha)

theorem run_grounded (maxPending : Nat) {inputs : List CrdtInput} (hkeys : OneOpPerKey inputs) :
    (run maxPending inputs).Grounded := by
  refine after_history CrdtNode.handle (P := fun _ n => n.Grounded) inputs ?_ ?_
  · intro k hk
    simp [CrdtNode.new, CrdtNode.integratedSet] at hk
  · intro front input hfront hgrounded
    have hinv := run_inv maxPending front
    have hmem := run_stored_mem maxPending front
    rw [run] at hinv hmem
    generalize after CrdtNode.handle (CrdtNode.new maxPending) front = n at *
    cases input with
    | apply op =>
        rw [CrdtNode.handle_apply]
        have hspec := n.apply_spec op
        generalize n.apply op = result at hspec ⊢
        cases hspec with
        | equivocation _ previous hop hne =>
            have hprevious : .apply previous ∈ inputs :=
              hfront.subset (List.mem_append_left _ (mem_appliedOps.mp (hmem _ _ hop)))
            have hlast : .apply op ∈ inputs := hfront.subset (by simp)
            exact absurd (hkeys previous (mem_appliedOps.mpr hprevious) op
              (mem_appliedOps.mpr hlast) (hinv.keyed _ _ hop).symm) hne
        | stored hadmits hop _ =>
            exact (hgrounded.store hinv.toWf hop).drain (hinv.toWf.store hadmits)
        | _ => exact hgrounded
    | installBootstrap b =>
        rw [CrdtNode.handle_installBootstrap]
        have hspec := n.installBootstrap_spec b
        generalize n.installBootstrap b = result at hspec ⊢
        cases hspec with
        | installed _ _ _ hempty =>
            intro k hk
            exact absurd hk (CrdtNode.not_mem_integrated_of_empty hinv.toWf hempty k)
        | _ => exact hgrounded
    | «seal» => simp only [CrdtNode.handle]; split <;> exact hgrounded
    | close error => simp only [CrdtNode.handle]; split <;> exact hgrounded
    | read request => exact hgrounded

/-! ## A replica that agrees -/

/-- While a replica lacks an operation of a grounded server and holds no other operation
for a key of the server, some operation of the server comes next for it. -/
theorem progresses_of_agrees {server node : CrdtNode} (hserver : server.Inv) (hnode : node.Inv)
    (hfloor : node.floor = server.floor) (hgrounded : server.Grounded)
    (hagrees : ∀ op ∈ server.operations, ∀ held, node.ops[key op]? = some held → held = op)
    {k : OpKey} (hk : k ∈ server.integrated) (hnew : k ∉ node.integrated) :
    Progresses server node := by
  have hmissing :
      ¬ derivable (causalRules server.floor {op | op ∈ server.operations}) ⊆
        node.integratedSet :=
    fun hsub => hnew (hsub (hgrounded hk))
  obtain ⟨r, ⟨op, hop, habove, rfl⟩, hpremises, hlacks⟩ := exists_ready_rule hmissing
  have hvalid := (hserver.operations_valid hop).1
  rw [← hfloor] at habove hpremises
  have hready := (CrdtNode.ready_iff_premises hnode.toWf hvalid).mpr hpremises
  obtain ⟨hseq, hdeps⟩ := CrdtNode.seq_eq_of_ready hnode.toWf hvalid habove hlacks hready
  refine .inr ⟨op, hop, hseq, hdeps, ?_⟩
  cases hheld : node.ops[key op]? with
  | none => rfl
  | some held =>
      -- a held operation of the server would be integrated, since it is ready
      obtain rfl := hagrees op hop held hheld
      rw [hnode.not_ready hheld hlacks] at hready
      simp at hready

/-- Where the floor stays, a clock that advances is one that integrated something. -/
theorem integrated_size_lt {n m : CrdtNode} (hn : n.Inv) (hm : m.Inv) (hfloor : m.floor = n.floor)
    (hadvance : ClockAdvances n.clock m.clock) : n.integrated.size < m.integrated.size := by
  obtain ⟨hle, o, hlt⟩ := hadvance
  have hbelow := hn.floor_le o
  refine set_size_lt ?_ (k := ⟨o, m.clock.getD o 0⟩) ?_ ?_
  · rintro ⟨o', s⟩ hmem
    have hbound := (hn.contiguous o' s).mp hmem
    rw [hm.contiguous, hfloor]
    exact ⟨hbound.1, hbound.2.trans (hle o')⟩
  · rw [hm.contiguous, hfloor]
    omega
  · rw [hn.contiguous]
    omega

theorem not_belowFloor_of_floor_eq {server node : CrdtNode} (hnode : node.Inv)
    (hfloor : node.floor = server.floor) : server.belowFloor node.clock = false := by
  rw [← Bool.not_eq_true, CrdtNode.belowFloor_iff]
  rintro ⟨o, s, hos, hlt⟩
  have hle := hnode.floor_le o
  rw [hfloor, Std.ExtTreeMap.getD_eq_getD_getElem?, hos, Option.getD_some] at hle
  omega

/-- A round that is followed by another one integrates an operation of the server. -/
theorem round_integrates {opts : ClientOpts} {server node : CrdtNode} (hserver : server.Inv)
    (hnode : node.Inv) (hopen : node.Open) (hfloor : node.floor = server.floor)
    (hgrounded : server.Grounded)
    (hagrees : ∀ op ∈ server.operations, ∀ held, node.ops[key op]? = some held → held = op)
    (hnext : (syncRound opts server node).floor = node.floor)
    (hlive : continues opts server node = true) :
    node.integrated.size < (syncRound opts server node).integrated.size := by
  have hlacks : ∃ k ∈ server.integrated, k ∉ node.integrated := by
    rw [continues] at hlive
    cases answer_spec opts hserver hnode with
    | install _ _ hbelow _ _ _ _ => simp [not_belowFloor_of_floor_eq hnode hfloor] at hbelow
    | data _ _ _ hany _ _ =>
        obtain ⟨op, hop⟩ := List.exists_mem_of_ne_nil _ hany
        obtain ⟨⟨o, s⟩, hk, habove, -⟩ := CrdtNode.mem_opsAbove.mp hop
        refine ⟨_, hk, fun hmem => ?_⟩
        have hcovered := ((hnode.contiguous o s).mp hmem).2
        simp only at habove
        omega
    | ahead hstate _ _ _ => simp [hstate] at hlive
    | drained hstate _ _ _ _ _ => simp [hstate] at hlive
  obtain ⟨k, hk, hnew⟩ := hlacks
  have hprogresses := progresses_of_agrees hserver hnode hfloor hgrounded hagrees hk hnew
  exact integrated_size_lt hnode (syncRound_keeps hnode hopen).1 hnext
    ((round_advances_iff hserver hnode hopen hlive).mpr hprogresses)

/-- A replica that a server has nothing more for is as far as the server. -/
theorem clock_eq_of_drained {server node : CrdtNode} (hserver : server.Inv) (hnode : node.Inv)
    (hknown : server.CursorKnown node.clock) (habove : server.belowFloor node.clock = false)
    (hempty : server.opsAbove node.clock = []) : node.clock = server.clock := by
  refine hnode.clock_canonical.ext hserver.clock_canonical fun o => ?_
  refine le_antisymm ?_ ?_
  · cases hos : node.clock[o]? with
    | none =>
        rw [Std.ExtTreeMap.getD_eq_getD_getElem? (t := node.clock), hos, Option.getD_none]
        exact hserver.clock_canonical.getD_nonneg o
    | some s =>
        rw [Std.ExtTreeMap.getD_eq_getD_getElem? (t := node.clock), hos, Option.getD_some]
        exact hknown o s hos
  · by_contra hlt
    -- the server integrated its last operation of this origin, which lies above the replica
    have hfloor : server.floor.getD o 0 ≤ node.clock.getD o 0 := by
      rw [← Bool.not_eq_true, CrdtNode.belowFloor_iff] at habove
      cases hos : server.floor[o]? with
      | none =>
          rw [Std.ExtTreeMap.getD_eq_getD_getElem? (t := server.floor), hos, Option.getD_none]
          exact hnode.clock_canonical.getD_nonneg o
      | some s =>
          rw [Std.ExtTreeMap.getD_eq_getD_getElem? (t := server.floor), hos, Option.getD_some]
          exact not_lt.mp fun hbelow => habove ⟨o, s, hos, hbelow⟩
    have hmem : (⟨o, server.clock.getD o 0⟩ : OpKey) ∈ server.integrated := by
      rw [hserver.contiguous]
      omega
    obtain ⟨op, hop⟩ := exists_getElem?_of_mem (hserver.stored _ hmem)
    have hin : op ∈ server.opsAbove node.clock :=
      CrdtNode.mem_opsAbove.mpr ⟨_, hmem, not_le.mp hlt, hop⟩
    rw [hempty] at hin
    simp at hin

theorem operations_eq_of_agrees {server node : CrdtNode} (hserver : server.Inv) (hnode : node.Inv)
    (hfloor : node.floor = server.floor) (hclock : node.clock = server.clock)
    (hagrees : ∀ op ∈ server.operations, ∀ held, node.ops[key op]? = some held → held = op) :
    node.operations = server.operations := by
  have hintegrated : node.integrated = server.integrated := by
    ext ⟨o, s⟩
    rw [hnode.contiguous, hserver.contiguous, hfloor, hclock]
  rw [CrdtNode.operations, CrdtNode.operations, hintegrated]
  refine List.filterMap_congr fun k hk => ?_
  have hk : k ∈ server.integrated := Std.ExtTreeSet.mem_toList.mp hk
  obtain ⟨op, hop⟩ := exists_getElem?_of_mem (hserver.stored k hk)
  obtain ⟨held, hheld⟩ := exists_getElem?_of_mem (hnode.stored k (hintegrated ▸ hk))
  obtain rfl := hserver.keyed k op hop
  rw [hheld, hop, hagrees op (CrdtNode.mem_operations.mpr ⟨_, hk, hop⟩) held hheld]

/-! ## The replica -/

/-- The replica has the floor of the server and holds only operations that the
server has integrated. -/
structure Synced (server node : CrdtNode) : Prop where
  inv : node.Inv
  isOpen : node.Open
  floor_eq : node.floor = server.floor
  held : ∀ (k : OpKey) (op : CrdtOp), node.ops[k]? = some op → op ∈ server.operations

section Rounds

variable {server node : CrdtNode} (hserver : server.Inv) (h : Synced server node)

include hserver h

theorem Synced.integrated_subset {k : OpKey} (hk : k ∈ node.integrated) :
    k ∈ server.integrated := by
  obtain ⟨op, hop⟩ := exists_getElem?_of_mem (h.inv.stored k hk)
  obtain ⟨k', hk', hstored⟩ := CrdtNode.mem_operations.mp (h.held k op hop)
  rwa [h.inv.keyed k op hop, ← hserver.keyed k' op hstored]

theorem Synced.clock_le (o : String) : node.clock.getD o 0 ≤ server.clock.getD o 0 := by
  by_contra hlt
  have hfloor := hserver.floor_le o
  have hmem : (⟨o, node.clock.getD o 0⟩ : OpKey) ∈ node.integrated := by
    rw [h.inv.contiguous, h.floor_eq]
    omega
  have hbound := (hserver.contiguous _ _).mp (h.integrated_subset hserver hmem)
  omega

theorem Synced.cursorKnown : server.CursorKnown node.clock := by
  intro o s hos
  have hle := h.clock_le hserver o
  rwa [Std.ExtTreeMap.getD_eq_getD_getElem?, hos, Option.getD_some] at hle

omit hserver in
theorem Synced.not_belowFloor : server.belowFloor node.clock = false :=
  not_belowFloor_of_floor_eq h.inv h.floor_eq

/-- The server never gave the replica a different operation for a key. -/
theorem Synced.held_eq {op held : CrdtOp} (hop : op ∈ server.operations)
    (hheld : node.ops[key op]? = some held) : held = op := by
  obtain ⟨k, -, hstored⟩ := CrdtNode.mem_operations.mp hop
  obtain ⟨k', -, hstored'⟩ := CrdtNode.mem_operations.mp (h.held _ held hheld)
  have hkey := h.inv.keyed _ held hheld
  obtain rfl := hserver.keyed k op hstored
  obtain rfl := hserver.keyed k' held hstored'
  rw [hkey, hstored'] at hstored
  exact Option.some.inj hstored

theorem Synced.apply {op : CrdtOp} (hop : op ∈ server.operations) :
    Synced server (node.apply op).1 := by
  have hinv := h.inv.apply op
  have hopen := CrdtNode.apply_open h.isOpen op
  have hspec := node.apply_spec op
  generalize node.apply op = result at hspec hinv hopen ⊢
  cases hspec with
  | equivocation _ previous hstored hne => exact absurd (h.held_eq hserver hop hstored) hne
  | stored _ _ _ =>
      refine ⟨hinv, hopen, (CrdtNode.drain_floor _).trans h.floor_eq, fun k a ha => ?_⟩
      rw [CrdtNode.drain_ops, CrdtNode.store, getElem?_insert] at ha
      split at ha
      · obtain rfl : op = a := by simpa using ha
        exact hop
      · exact h.held k a ha
  | _ => exact h

theorem Synced.deliver {l : List CrdtOp} (hl : ∀ op ∈ l, op ∈ server.operations) :
    Synced server (after CrdtNode.handle node (deliveries l)) := by
  refine after_induction CrdtNode.handle h fun n input hinput hn => ?_
  obtain ⟨op, hop, rfl⟩ := List.mem_map.mp hinput
  exact hn.apply hserver (hl op hop)

theorem Synced.round (opts : ClientOpts) : Synced server (syncRound opts server node) := by
  have hspec := answer_spec opts hserver h.inv
  rw [syncRound, receive]
  generalize answer opts server node = response at hspec ⊢
  cases hspec with
  | install _ _ hbelow _ _ _ _ => simp [h.not_belowFloor] at hbelow
  | data _ _ _ _ hbootstrap hops =>
      rw [hbootstrap, hops]
      exact h.deliver hserver fun op hop => ((mem_opsAbove_of_operations hserver).mp hop).1
  | ahead _ hahead _ _ => exact absurd (h.cursorKnown hserver) hahead
  | drained _ _ _ _ hbootstrap hops =>
      rw [hbootstrap, hops]
      exact h

theorem Synced.size_lt (hgrounded : server.Grounded) {opts : ClientOpts}
    (hlive : continues opts server node = true) :
    node.integrated.size < (syncRound opts server node).integrated.size :=
  round_integrates hserver h.inv h.isOpen h.floor_eq hgrounded
    (fun _ hop _ hheld => h.held_eq hserver hop hheld)
    ((h.round hserver opts).floor_eq.trans h.floor_eq.symm) hlive

theorem Synced.same_of_stop {opts : ClientOpts} (hdead : continues opts server node = false) :
    node.clockMessage = server.clockMessage ∧ node.operations = server.operations := by
  have hspec := answer_spec opts hserver h.inv
  rw [continues] at hdead
  have hempty : server.opsAbove node.clock = [] := by
    cases hspec with
    | install hstate _ _ _ _ _ _ => simp [hstate, CrdtState.continues] at hdead
    | data hstate _ _ _ _ _ => simp [hstate, CrdtState.continues] at hdead
    | ahead _ hahead _ _ => exact absurd (h.cursorKnown hserver) hahead
    | drained _ _ _ hempty _ _ => exact hempty
  have hclock : node.clock = server.clock :=
    clock_eq_of_drained hserver h.inv (h.cursorKnown hserver) h.not_belowFloor hempty
  refine ⟨by rw [CrdtNode.clockMessage, hclock, CrdtNode.clockMessage], ?_⟩
  exact operations_eq_of_agrees hserver h.inv h.floor_eq hclock
    fun _ hop _ hheld => h.held_eq hserver hop hheld

/-- The loop between synced nodes: one read for each missing operation and a last one. -/
theorem Synced.loop (hgrounded : server.Grounded) (opts : ClientOpts) {fuel : Nat}
    (hfuel : server.integrated.size - node.integrated.size < fuel) :
    ∃ last, syncLoop opts server fuel node = some last ∧
      last.clockMessage = server.clockMessage ∧ last.operations = server.operations := by
  have hstep : ∀ n, Synced server n → continues opts server n = true →
      Synced server (syncRound opts server n) ∧
        server.integrated.size - (syncRound opts server n).integrated.size <
          server.integrated.size - n.integrated.size := by
    intro n hn hlive
    have hnext := hn.round hserver opts
    have hlt := hn.size_lt hserver hgrounded hlive
    have hle := set_size_le fun k hk => hnext.integrated_subset hserver (k := k) hk
    exact ⟨hnext, by omega⟩
  obtain ⟨last, hlast, hdead, hloop⟩ :=
    poll_of_measure (fun n => server.integrated.size - n.integrated.size) hstep h hfuel
  rw [syncRound_idle hserver hlast.inv hdead] at hloop
  exact ⟨last, hloop, hlast.same_of_stop hserver hdead⟩

end Rounds

/-! ## From a fresh replica -/

theorem synced_new {server : CrdtNode} (maxPending : Nat) (hfloor : server.floor = ∅) :
    Synced server (CrdtNode.new maxPending) :=
  ⟨CrdtNode.inv_new maxPending, ⟨rfl, rfl⟩, hfloor.symm, by simp [CrdtNode.new]⟩

/-- Over a floor, the first round installs the bootstrap. -/
theorem first_round {server : CrdtNode} (hserver : server.Inv) (hfloor : server.floor ≠ ∅)
    (opts : ClientOpts) (maxPending : Nat) :
    continues opts server (CrdtNode.new maxPending) = true ∧
      Synced server (syncRound opts server (CrdtNode.new maxPending)) := by
  have hnew := CrdtNode.inv_new maxPending
  have hbelow : server.belowFloor (CrdtNode.new maxPending).clock = true := by
    rw [CrdtNode.belowFloor_iff]
    obtain ⟨⟨o, s⟩, hmem⟩ := List.exists_mem_of_ne_nil server.floor.toList
      (by rwa [ne_eq, Std.ExtTreeMap.toList_eq_nil_iff])
    have hos := Std.ExtTreeMap.mem_toList_iff_getElem?_eq_some.mp hmem
    exact ⟨o, s, hos, by simpa [CrdtNode.new] using (hserver.floor_canonical o s hos).2⟩
  have hspec := answer_spec opts hserver hnew
  rw [continues, syncRound, receive]
  generalize answer opts server (CrdtNode.new maxPending) = response at hspec ⊢
  cases hspec with
  | install hstate _ _ b hb hbootstrap hops =>
      refine ⟨by rw [hstate]; rfl, ?_⟩
      have hinstalled := CrdtNode.installBootstrap_fresh (n := CrdtNode.new maxPending) ⟨rfl, rfl⟩
        (hserver.bootstrapped b hb) rfl rfl
      have hinv := hnew.installBootstrap b
      rw [hbootstrap, hops]
      show Synced server (after CrdtNode.handle ((CrdtNode.new maxPending).installBootstrap b).1
        (deliveries (server.opsAbove server.floor)))
      rw [hinstalled] at hinv ⊢
      refine Synced.deliver hserver ⟨hinv, ⟨rfl, rfl⟩, rfl, by simp [CrdtNode.new]⟩ fun op hop => ?_
      exact ((mem_opsAbove_of_operations hserver).mp hop).1
  | data _ _ habove _ _ _ => simp [hbelow] at habove
  | ahead _ hahead _ _ => exact absurd (by simp [CrdtNode.CursorKnown, CrdtNode.new]) hahead
  | drained _ _ habove _ _ _ => simp [hbelow] at habove

/-- **Anti-entropy completeness.**  A fresh replica with any pending bound catches up
with a server that saw one operation to a key, within one read for each integrated
operation, one for a bootstrap and one that finds nothing more. -/
theorem anti_entropy_complete (opts : ClientOpts) (maxPending maxPending' : Nat)
    (inputs : List CrdtInput) (hkeys : OneOpPerKey inputs) :
    let server := run maxPending inputs
    let reads := server.integrated.size + 1 + if server.bootstrap.isSome then 1 else 0
    ∃ replica, syncLoop opts server reads (CrdtNode.new maxPending') = some replica ∧
      replica.clockMessage = server.clockMessage ∧
      replica.operations = server.operations := by
  intro server reads
  have hserver : server.Inv := run_inv maxPending inputs
  have hgrounded : server.Grounded := run_grounded maxPending hkeys
  by_cases hfloor : server.floor = ∅
  · refine (synced_new maxPending' hfloor).loop hserver hgrounded opts ?_
    simp only [reads]
    omega
  · obtain ⟨hlive, hsynced⟩ := first_round hserver hfloor opts maxPending'
    have hsome : server.bootstrap.isSome = true := by
      rw [Option.isSome_iff_ne_none]
      exact fun hnone => hfloor (hserver.unbootstrapped hnone)
    have hreads : reads = server.integrated.size + 1 + 1 := by simp only [reads, hsome, if_true]
    rw [hreads, syncLoop, poll_of_live hlive]
    exact hsynced.loop hserver hgrounded opts (by omega)

/-- With no room to buffer, a chain listed against its causal order takes a read for
each operation. -/
theorem anti_entropy_complete_unbuffered :
    let inputs : List CrdtInput := [.installBootstrap ⟨⟨[⟨"c", 1⟩]⟩, []⟩,
      .apply ⟨"b", 1, ⟨[⟨"c", 1⟩]⟩, []⟩, .apply ⟨"a", 1, ⟨[⟨"b", 1⟩]⟩, []⟩]
    ∃ replica, syncLoop ⟨"doc", "s"⟩ (run 8 inputs) 4 (CrdtNode.new 0) = some replica ∧
      replica.clockMessage = (run 8 inputs).clockMessage ∧
      replica.operations = (run 8 inputs).operations :=
  anti_entropy_complete ⟨"doc", "s"⟩ 8 0 _ (by decide)

end TautShape.Crdt
