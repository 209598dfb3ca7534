import TautShape.Crdt.Read
import TautShape.Lib.Polling
/-!
# The replica's read and apply loop

A replica reads a server at its own clock, installs the bootstrap of the answer,
applies the operations of the answer and reads again while the answer was data or
a bootstrap.  A round moves the clock only through a bootstrap that the replica
can still install, or through an operation that comes next and that the replica
does not hold already; anything else leaves the loop asking the same question.
-/

namespace TautShape.Crdt

open TautShape.Lib

namespace CrdtNode

/-- The operation is the next one of its origin, its dependencies are covered, and
the replica holds no variant of it that is as small. -/
def Next (n : CrdtNode) (op : CrdtOp) : Prop :=
  op.seq = n.clock.getD op.origin 0 + 1 ∧ DepsCovered n.clock op ∧
    (n.ops[key op]?).all (fun held => (compare (variant op) (variant held)).isLT) = true

instance (n : CrdtNode) (op : CrdtOp) : Decidable (n.Next op) :=
  inferInstanceAs (Decidable (_ ∧ _ ∧ _))

def Open (n : CrdtNode) : Prop := n.sealed = false ∧ n.closed = false

/-! ## One delivery -/

theorem ready_congr {n m : CrdtNode} (hclock : m.clock = n.clock) (op : CrdtOp) :
    m.ready op = n.ready op := by
  simp only [ready, hclock]

theorem readyKeys_nil_of_old {n m : CrdtNode} (hn : Inv n) (hclock : m.clock = n.clock)
    (hintegrated : m.integrated = n.integrated)
    (hold : ∀ (k : OpKey) (op : CrdtOp), m.ops[k]? = some op → k ∉ n.integrated →
      n.ready op = true → n.ops[k]? = some op) : m.readyKeys = [] := by
  refine List.eq_nil_iff_forall_not_mem.mpr fun k hk => ?_
  obtain ⟨hnew, op, hop, hready⟩ := mem_readyKeys.mp hk
  rw [hintegrated] at hnew
  rw [ready_congr hclock] at hready
  rw [hn.not_ready (hold k op hop hnew hready) hnew] at hready
  simp at hready

theorem seq_eq_of_ready {n : CrdtNode} (hn : Wf n) {op : CrdtOp} (hvalid : valid op = true)
    (habove : n.floor.getD op.origin 0 < op.seq) (hnew : key op ∉ n.integrated)
    (hready : n.ready op = true) :
    op.seq = n.clock.getD op.origin 0 + 1 ∧ DepsCovered n.clock op := by
  exact ⟨hn.seq_eq hvalid habove hnew hready, ((ready_iff hvalid).mp hready).2⟩

theorem apply_open {n : CrdtNode} (h : n.Open) (op : CrdtOp) : (n.apply op).1.Open := by
  have hspec := n.apply_spec op
  generalize n.apply op = result at hspec ⊢
  cases hspec with
  | equivocation _ _ _ _ => simpa [Open, CrdtNode.settle] using h
  | stored _ _ _ => simpa [Open, CrdtNode.store] using h
  | _ => exact h

theorem apply_ops_other (n : CrdtNode) {op : CrdtOp} {k : OpKey} (hne : key op ≠ k) :
    (n.apply op).1.ops[k]? = n.ops[k]? := by
  have hspec := n.apply_spec op
  generalize n.apply op = result at hspec ⊢
  cases hspec with
  | equivocation _ previous _ _ => rw [drain_ops, settle_getElem?, if_neg fun h => hne h.2]
  | stored _ _ _ => rw [drain_ops, CrdtNode.store, getElem?_insert, if_neg hne]
  | _ => rfl

/-- A held operation only ever makes way for a smaller variant. -/
theorem apply_held (n : CrdtNode) (op : CrdtOp) {k : OpKey} {held : CrdtOp}
    (hheld : n.ops[k]? = some held) :
    ∃ held' : CrdtOp, (n.apply op).1.ops[k]? = some held' ∧
      (compare (variant held') (variant held)).isLE = true := by
  have hspec := n.apply_spec op
  generalize n.apply op = result at hspec ⊢
  cases hspec with
  | equivocation _ previous hop _ =>
      rw [drain_ops, settle_getElem?]
      split
      · rename_i hboth
        obtain ⟨hless, rfl⟩ := hboth
        obtain rfl : previous = held := by simpa [hop] using hheld
        exact ⟨op, rfl, Ordering.isLE_of_eq_lt (by simpa using hless)⟩
      · exact ⟨held, hheld, by simp⟩
  | stored _ hop _ =>
      refine ⟨held, ?_, by simp⟩
      rw [drain_ops, CrdtNode.store, getElem?_insert, if_neg, hheld]
      rintro rfl
      simp [hop] at hheld
  | _ => exact ⟨held, hheld, by simp⟩

theorem apply_advances {n : CrdtNode} (hn : Inv n) (hopen : n.Open) {op : CrdtOp}
    (hvalid : valid op = true) (hnext : n.Next op) :
    n.clock.getD op.origin 0 < (n.apply op).1.clock.getD op.origin 0 := by
  obtain ⟨hseq, hdeps, hheld⟩ := hnext
  have hready : n.ready op = true := (ready_iff hvalid).mpr ⟨by omega, hdeps⟩
  have hfloor := hn.floor_le op.origin
  have hadvance : ∀ m : CrdtNode, Wf m → m.clock = n.clock → m.ops[key op]? = some op →
      n.clock.getD op.origin 0 < m.drain.clock.getD op.origin 0 := by
    intro m hm hclock hop
    have hmem := mem_drain_of_ready hm hop (by rwa [ready_congr hclock])
    have hcovered := (((drain_wf hm).contiguous op.origin op.seq).mp hmem).2
    omega
  have hspec := n.apply_spec op
  generalize n.apply op = result at hspec ⊢
  cases hspec with
  | terminal h => simp [hopen.1, hopen.2] at h
  | invalid _ _ h => simp [hvalid] at h
  | belowFloor _ _ h => omega
  | duplicate _ hop => simp [hop] at hheld
  | equivocation hadmits previous hop _ =>
      simp only [hop, Option.all_some] at hheld
      refine hadvance _ (hn.toWf.settle hadmits previous) rfl ?_
      rw [settle_getElem?, if_pos ⟨hheld, rfl⟩]
  | overflow _ _ h _ => simp [hready] at h
  | stored hadmits _ _ =>
      refine hadvance _ (hn.toWf.store hadmits) rfl ?_
      rw [CrdtNode.store, getElem?_insert, if_pos rfl]

theorem apply_clock_eq {n : CrdtNode} (hn : Inv n) {op : CrdtOp} (hnext : ¬ n.Next op) :
    (n.apply op).1.clock = n.clock := by
  have hspec := n.apply_spec op
  generalize n.apply op = result at hspec ⊢
  cases hspec with
  | equivocation hadmits previous hop _ =>
      have hnil : (n.settle op previous).readyKeys = [] := by
        refine readyKeys_nil_of_old hn rfl rfl fun k op' hop' hnew hready => ?_
        rw [settle_getElem?] at hop'
        split at hop'
        · rename_i hboth
          obtain ⟨hless, rfl⟩ := hboth
          obtain rfl : op = op' := by simpa using hop'
          obtain ⟨hseq, hdeps⟩ := seq_eq_of_ready hn.toWf hadmits.valid hadmits.above hnew hready
          exact absurd ⟨hseq, hdeps, by simp [hop, hless]⟩ hnext
        · exact hop'
      rw [drain_eq_self hnil]
      rfl
  | stored hadmits hop _ =>
      have hnil : (n.store op).readyKeys = [] := by
        refine readyKeys_nil_of_old hn rfl rfl fun k op' hop' hnew hready => ?_
        rw [CrdtNode.store, getElem?_insert] at hop'
        split at hop'
        · rename_i heq
          subst heq
          obtain rfl : op = op' := by simpa using hop'
          obtain ⟨hseq, hdeps⟩ := seq_eq_of_ready hn.toWf hadmits.valid hadmits.above hnew hready
          exact absurd ⟨hseq, hdeps, by simp [hop]⟩ hnext
        · exact hop'
      rw [drain_eq_self hnil]
      rfl
  | _ => rfl

/-! ## A list of deliveries -/

theorem next_congr {n m : CrdtNode} {op : CrdtOp} (hclock : m.clock = n.clock)
    (hops : m.ops[key op]? = n.ops[key op]?) : m.Next op ↔ n.Next op := by
  rw [Next, Next, hclock, hops]

theorem deliver_clock_le {n : CrdtNode} (hn : Inv n) (l : List CrdtOp) (o : String) :
    n.clock.getD o 0 ≤ (after handle n (deliveries l)).clock.getD o 0 := by
  induction l generalizing n with
  | nil => exact le_rfl
  | cons op rest ih => exact (apply_clock_le hn op o).trans (ih (hn.apply op))

theorem deliver_held {n : CrdtNode} (l : List CrdtOp) {k : OpKey} {held : CrdtOp}
    (hheld : n.ops[k]? = some held) :
    ∃ held' : CrdtOp, (after handle n (deliveries l)).ops[k]? = some held' ∧
      (compare (variant held') (variant held)).isLE = true := by
  induction l generalizing n held with
  | nil => exact ⟨held, hheld, by simp⟩
  | cons op rest ih =>
      obtain ⟨mid, hmid, hle⟩ := n.apply_held op hheld
      obtain ⟨last, hlast, hle'⟩ := ih hmid
      exact ⟨last, hlast, Std.TransCmp.isLE_trans hle' hle⟩

/-- Among operations with different keys, one that comes next moves the clock. -/
theorem deliver_advances {n : CrdtNode} (hn : Inv n) (hopen : n.Open) {l : List CrdtOp}
    (hvalid : ∀ op ∈ l, valid op = true) (hkeys : (l.map key).Nodup) {op : CrdtOp}
    (hop : op ∈ l) (hnext : n.Next op) :
    ∃ o, n.clock.getD o 0 < (after handle n (deliveries l)).clock.getD o 0 := by
  induction l generalizing n with
  | nil => simp at hop
  | cons a rest ih =>
      obtain ⟨hfresh, hrest⟩ := List.nodup_cons.mp hkeys
      have hna := hn.apply a
      by_cases ha : n.Next a
      · have hlt := apply_advances hn hopen (hvalid a (by simp)) ha
        exact ⟨a.origin, hlt.trans_le (deliver_clock_le hna rest a.origin)⟩
      · -- `a` leaves the clock and the key of `op` alone
        have hclock := apply_clock_eq hn ha
        have hmem : op ∈ rest := by
          rcases List.mem_cons.mp hop with rfl | hmem
          · exact absurd hnext ha
          · exact hmem
        have hne : key a ≠ key op := fun heq => hfresh (heq ▸ List.mem_map_of_mem hmem)
        have hnext' := (next_congr hclock (n.apply_ops_other hne)).mpr hnext
        have hlater := ih hna (apply_open hopen a)
          (fun b hb => hvalid b (List.mem_cons_of_mem a hb)) hrest hmem hnext'
        rwa [hclock] at hlater

theorem deliver_clock_eq {n : CrdtNode} (hn : Inv n) {l : List CrdtOp}
    (hkeys : (l.map key).Nodup) (hnone : ∀ op ∈ l, ¬ n.Next op) :
    (after handle n (deliveries l)).clock = n.clock := by
  induction l generalizing n with
  | nil => rfl
  | cons a rest ih =>
      obtain ⟨hfresh, hrest⟩ := List.nodup_cons.mp hkeys
      have hclock := apply_clock_eq hn (hnone a (by simp))
      have hlater : ∀ op ∈ rest, ¬ (n.apply a).1.Next op := by
        intro op hop
        have hne : key a ≠ key op := fun heq => hfresh (heq ▸ List.mem_map_of_mem hop)
        rw [next_congr hclock (n.apply_ops_other hne)]
        exact hnone op (List.mem_cons_of_mem a hop)
      exact (ih (hn.apply a) hrest hlater).trans hclock

/-! ## A bootstrap -/

theorem installBootstrap_fresh {n : CrdtNode} (hopen : n.Open) {b : CrdtBootstrap}
    {parsed : ClockMap} (hparsed : clockMap b.clock = some parsed) (hnone : n.bootstrap = none)
    (hempty : n.ops = ∅) :
    (n.installBootstrap b).1 =
      { n with floor := parsed, clock := parsed, bootstrap := some b } := by
  simp [installBootstrap, hopen.1, hopen.2, hparsed, hnone, hempty]

theorem installBootstrap_used {n : CrdtNode} (hused : ¬ (n.bootstrap = none ∧ n.ops = ∅))
    (b : CrdtBootstrap) : (n.installBootstrap b).1 = n := by
  have hspec := n.installBootstrap_spec b
  generalize n.installBootstrap b = result at hspec ⊢
  cases hspec with
  | installed _ _ hnone hempty => exact absurd ⟨hnone, hempty⟩ hused
  | _ => rfl

theorem installBootstrap_open {n : CrdtNode} (h : n.Open) (b : CrdtBootstrap) :
    (n.installBootstrap b).1.Open := by
  have hspec := n.installBootstrap_spec b
  generalize n.installBootstrap b = result at hspec ⊢
  cases hspec <;> exact h

end CrdtNode

/-! ## The loop -/

structure ClientOpts where
  crdtId : String
  streamId : String

def sendRead (opts : ClientOpts) (node : CrdtNode) : CrdtReadRequest where
  crdtId := opts.crdtId
  streamId := opts.streamId
  cursor := some node.clockMessage

/-- The states after which the client sends another read. -/
def CrdtState.continues : CrdtState → Bool
  | .data | .bootstrapRequired => true
  | _ => false

def receive (response : CrdtReadResponse) (node : CrdtNode) : CrdtNode :=
  after CrdtNode.handle node (bootstrapInputs response.bootstrap ++ deliveries response.ops)

/-- The answer of a server that receives nothing else to the client's read. -/
def answer (opts : ClientOpts) (server node : CrdtNode) : CrdtReadResponse :=
  server.read (sendRead opts node)

def syncRound (opts : ClientOpts) (server node : CrdtNode) : CrdtNode :=
  receive (answer opts server node) node

def continues (opts : ClientOpts) (server node : CrdtNode) : Bool :=
  (answer opts server node).state.continues

/-- The loop of `drive_client`, after at most `fuel` reads. -/
def syncLoop (opts : ClientOpts) (server : CrdtNode) (fuel : Nat) (node : CrdtNode) :
    Option CrdtNode :=
  poll (continues opts server) (syncRound opts server) fuel node

inductive Answers (server node : CrdtNode) (response : CrdtReadResponse) : Prop where
  | install (hstate : response.state = .bootstrapRequired)
      (hknown : server.CursorKnown node.clock)
      (hbelow : server.belowFloor node.clock = true) (b : CrdtBootstrap)
      (hb : server.bootstrap = some b) (hbootstrap : response.bootstrap = some b)
      (hops : response.ops = server.opsAbove server.floor)
  | data (hstate : response.state = .data) (hknown : server.CursorKnown node.clock)
      (habove : server.belowFloor node.clock = false)
      (hany : server.opsAbove node.clock ≠ []) (hbootstrap : response.bootstrap = none)
      (hops : response.ops = server.opsAbove node.clock)
  | ahead (hstate : response.state.continues = false) (h : ¬ server.CursorKnown node.clock)
      (hbootstrap : response.bootstrap = none) (hops : response.ops = [])
  | drained (hstate : response.state.continues = false)
      (hknown : server.CursorKnown node.clock)
      (habove : server.belowFloor node.clock = false) (hempty : server.opsAbove node.clock = [])
      (hbootstrap : response.bootstrap = none) (hops : response.ops = [])

theorem CrdtNode.Inv.belowFloor_of_none {n : CrdtNode} (hn : n.Inv) (hnone : n.bootstrap = none)
    (cursor : ClockMap) : n.belowFloor cursor = false := by
  rw [← Bool.not_eq_true, CrdtNode.belowFloor_iff, hn.unbootstrapped hnone]
  simp

theorem answer_spec (opts : ClientOpts) {server node : CrdtNode} (hserver : server.Inv)
    (hnode : node.Inv) : Answers server node (answer opts server node) := by
  have hrequest : CrdtNode.requestCursor (sendRead opts node) = some node.clock :=
    clockMap_clockValue hnode.clock_canonical
  have hsome : (sendRead opts node).cursor.isSome = true := rfl
  have hstop := CrdtNode.drainedResponse_state server (sendRead opts node)
  have hstop : (server.drainedResponse (sendRead opts node)).state.continues = false := by
    cases hstate : (server.drainedResponse (sendRead opts node)).state <;>
      simp_all [CrdtState.continues]
  generalize hresult : answer opts server node = result
  have hspec := server.read_spec (sendRead opts node)
  rw [answer] at hresult
  rw [hresult] at hspec
  cases hspec with
  | malformed h => simp [hrequest] at h
  | ahead cursor hcursor h =>
      obtain rfl : node.clock = cursor := by simpa [hrequest] using hcursor
      exact .ahead rfl h rfl rfl
  | rebased cursor hcursor hknown _ hbelow _ =>
      obtain rfl : node.clock = cursor := by simpa [hrequest] using hcursor
      cases hb : server.bootstrap with
      | none => simp [hserver.belowFloor_of_none hb] at hbelow
      | some b => exact .install rfl hknown hbelow b hb rfl rfl
  | data cursor hcursor hknown habove hany =>
      obtain rfl : node.clock = cursor := by simpa [hrequest] using hcursor
      refine .data rfl hknown ?_ ?_ rfl rfl
      · simpa [hsome] using habove
      · exact hany.resolve_left fun h => by simp [sendRead] at h
  | rebasedDrained cursor _ _ _ hbelow hnone _ =>
      simp [hserver.belowFloor_of_none hnone] at hbelow
  | drained cursor hcursor hknown habove hempty =>
      obtain rfl : node.clock = cursor := by simpa [hrequest] using hcursor
      refine .drained hstop hknown ?_ hempty (server.drainedResponse_bootstrap _)
        (server.drainedResponse_ops _)
      simpa [hsome] using habove

/-! ## When a round moves the clock -/

/-- No origin goes back and some origin goes forward. -/
def ClockAdvances (before later : ClockMap) : Prop :=
  (∀ o, before.getD o 0 ≤ later.getD o 0) ∧ ∃ o, before.getD o 0 < later.getD o 0

/-- The server asks for a bootstrap the replica can still install, or has an
operation that comes next for the replica. -/
def Progresses (server node : CrdtNode) : Prop :=
  (node.bootstrap = none ∧ node.ops.isEmpty = true ∧ server.belowFloor node.clock = true) ∨
    ∃ op ∈ server.operations, node.Next op

instance (server node : CrdtNode) : Decidable (Progresses server node) :=
  inferInstanceAs (Decidable (_ ∨ ∃ op ∈ server.operations, _))

theorem CrdtNode.Inv.operations_valid {n : CrdtNode} (hn : n.Inv) {op : CrdtOp}
    (hop : op ∈ n.operations) : CrdtNode.valid op = true ∧ n.floor.getD op.origin 0 < op.seq := by
  obtain ⟨k, -, hstored⟩ := CrdtNode.mem_operations.mp hop
  exact ⟨hn.all_valid k op hstored, hn.above k op hstored⟩

theorem mem_opsAbove_of_operations {n : CrdtNode} (hn : n.Inv) {base : ClockMap} {op : CrdtOp} :
    op ∈ n.opsAbove base ↔ op ∈ n.operations ∧ base.getD op.origin 0 < op.seq := by
  rw [CrdtNode.mem_opsAbove, CrdtNode.mem_operations]
  constructor
  · rintro ⟨k, hk, habove, hstored⟩
    obtain rfl := hn.keyed k op hstored
    exact ⟨⟨_, hk, hstored⟩, habove⟩
  · rintro ⟨⟨k, hk, hstored⟩, habove⟩
    obtain rfl := hn.keyed k op hstored
    exact ⟨_, hk, habove, hstored⟩

section Round

variable {opts : ClientOpts} {server node : CrdtNode} (hserver : server.Inv) (hnode : node.Inv)
  (hopen : node.Open)

include hserver hnode hopen

/-- The operations of an answer move the clock when one of them comes next. -/
theorem deliver_operations (base : ClockMap)
    (hbase : ∀ op ∈ server.operations, node.Next op → base.getD op.origin 0 < op.seq) :
    (∃ op ∈ server.operations, node.Next op) ∧
        ClockAdvances node.clock
          (after CrdtNode.handle node (deliveries (server.opsAbove base))).clock ∨
      (¬ ∃ op ∈ server.operations, node.Next op) ∧
        (after CrdtNode.handle node (deliveries (server.opsAbove base))).clock = node.clock := by
  have hmem : ∀ op, op ∈ server.opsAbove base ↔
      op ∈ server.operations ∧ base.getD op.origin 0 < op.seq :=
    fun _ => mem_opsAbove_of_operations hserver
  have hkeys := CrdtNode.opsAbove_keys_nodup hserver.toWf base
  by_cases hnext : ∃ op ∈ server.operations, node.Next op
  · obtain ⟨op, hop, hopnext⟩ := hnext
    refine .inl ⟨⟨op, hop, hopnext⟩, CrdtNode.deliver_clock_le hnode _, ?_⟩
    refine CrdtNode.deliver_advances hnode hopen ?_ hkeys
      ((hmem op).mpr ⟨hop, hbase op hop hopnext⟩) hopnext
    intro a ha
    exact (hserver.operations_valid ((hmem a).mp ha).1).1
  · refine .inr ⟨hnext, CrdtNode.deliver_clock_eq hnode hkeys fun op hop hopnext => ?_⟩
    exact hnext ⟨op, ((hmem op).mp hop).1, hopnext⟩

/-- A live round moves the clock or leaves it exactly as it was. -/
theorem round_clock (hlive : continues opts server node = true) :
    Progresses server node ∧ ClockAdvances node.clock (syncRound opts server node).clock ∨
      ¬ Progresses server node ∧ (syncRound opts server node).clock = node.clock := by
  have hspec := answer_spec opts hserver hnode
  rw [continues] at hlive
  rw [syncRound, receive]
  generalize answer opts server node = response at hspec hlive ⊢
  cases hspec with
  | install _ _ hbelow b hb hbootstrap hops =>
      rw [hbootstrap, hops]
      by_cases hfresh : node.bootstrap = none ∧ node.ops = ∅
      · -- the bootstrap is installed, and its clock is ahead of the empty one
        obtain ⟨hnone, hempty⟩ := hfresh
        have hclock := hnode.clock_eq_of_fresh hnone hempty
        have hparsed := hserver.bootstrapped b hb
        have hinstalled := CrdtNode.installBootstrap_fresh hopen hparsed hnone hempty
        obtain ⟨o, s, hos, hlt⟩ := CrdtNode.belowFloor_iff.mp hbelow
        have hround : after CrdtNode.handle node (bootstrapInputs (some b) ++
            deliveries (server.opsAbove server.floor)) =
            after CrdtNode.handle (node.installBootstrap b).1
              (deliveries (server.opsAbove server.floor)) := rfl
        have hle := CrdtNode.deliver_clock_le (hnode.installBootstrap b)
          (server.opsAbove server.floor)
        rw [hinstalled] at hround hle
        have hfloor : server.floor.getD o 0 = s := by
          rw [Std.ExtTreeMap.getD_eq_getD_getElem?, hos, Option.getD_some]
        rw [hround]
        refine .inl ⟨.inl ⟨hnone, by simpa using hempty, hbelow⟩, fun o' => ?_, o, ?_⟩
        · refine le_trans ?_ (hle o')
          simpa [hclock] using hserver.floor_canonical.getD_nonneg o'
        · exact lt_of_lt_of_le (hfloor ▸ hlt) (hle o)
      · have hround : after CrdtNode.handle node (bootstrapInputs (some b) ++
            deliveries (server.opsAbove server.floor)) =
            after CrdtNode.handle node (deliveries (server.opsAbove server.floor)) := by
          show after CrdtNode.handle (node.installBootstrap b).1 _ = _
          rw [CrdtNode.installBootstrap_used hfresh]
          rfl
        rw [hround]
        have hcases := deliver_operations hserver hnode hopen server.floor
          fun op hop _ => (hserver.operations_valid hop).2
        rcases hcases with ⟨hnext, hadvance⟩ | ⟨hnext, hsame⟩
        · exact .inl ⟨.inr hnext, hadvance⟩
        · refine .inr ⟨?_, hsame⟩
          rintro (⟨hnone, hempty, -⟩ | hop)
          · exact hfresh ⟨hnone, by simpa using hempty⟩
          · exact hnext hop
  | data _ _ habove _ hbootstrap hops =>
      rw [hbootstrap, hops]
      have hcases := deliver_operations hserver hnode hopen node.clock
        fun op _ hnext => by
          have hseq := hnext.1
          omega
      rcases hcases with ⟨hnext, hadvance⟩ | ⟨hnext, hsame⟩
      · exact .inl ⟨.inr hnext, hadvance⟩
      · refine .inr ⟨?_, hsame⟩
        rintro (⟨-, -, hbelow⟩ | hop)
        · simp [habove] at hbelow
        · exact hnext hop
  | ahead hstate _ _ _ => simp [hstate] at hlive
  | drained hstate _ _ _ _ _ => simp [hstate] at hlive

theorem round_advances_iff (hlive : continues opts server node = true) :
    ClockAdvances node.clock (syncRound opts server node).clock ↔ Progresses server node := by
  rcases round_clock hserver hnode hopen hlive with ⟨hgood, hadvance⟩ | ⟨hbad, hsame⟩
  · exact iff_of_true hadvance hgood
  · refine iff_of_false ?_ hbad
    rintro ⟨-, o, hlt⟩
    rw [hsame] at hlt
    omega

omit hserver in
theorem syncRound_keeps : (syncRound opts server node).Inv ∧ (syncRound opts server node).Open := by
  refine after_induction CrdtNode.handle (P := fun n => n.Inv ∧ n.Open) ⟨hnode, hopen⟩ ?_
  rintro n input hinput ⟨hn, hnopen⟩
  refine ⟨hn.handle input, ?_⟩
  rcases List.mem_append.mp hinput with hinput | hinput
  · obtain ⟨b, -, rfl⟩ := List.mem_map.mp hinput
    exact CrdtNode.installBootstrap_open hnopen b
  · obtain ⟨op, -, rfl⟩ := List.mem_map.mp hinput
    exact CrdtNode.apply_open hnopen op

omit hopen in
/-- The answer that ends the loop changes nothing. -/
theorem syncRound_idle (hdead : continues opts server node = false) :
    syncRound opts server node = node := by
  have hspec := answer_spec opts hserver hnode
  rw [continues] at hdead
  rw [syncRound, receive]
  generalize answer opts server node = response at hspec hdead ⊢
  cases hspec with
  | install hstate _ _ _ _ _ _ => simp [hstate, CrdtState.continues] at hdead
  | data hstate _ _ _ _ _ => simp [hstate, CrdtState.continues] at hdead
  | ahead _ _ hbootstrap hops =>
      rw [hbootstrap, hops]
      rfl
  | drained _ _ _ _ hbootstrap hops =>
      rw [hbootstrap, hops]
      rfl

omit hserver hnode hopen in
theorem syncRound_frame (opts : ClientOpts) (server node : CrdtNode) :
    ((syncRound opts server node).bootstrap = none → node.bootstrap = none) ∧
      ∀ (k : OpKey) (held : CrdtOp), node.ops[k]? = some held →
        ∃ held' : CrdtOp, (syncRound opts server node).ops[k]? = some held' ∧
          (compare (variant held') (variant held)).isLE = true := by
  have hinstall : ∀ bootstrap : Option CrdtBootstrap,
      ((after CrdtNode.handle node (bootstrapInputs bootstrap)).bootstrap = none →
        node.bootstrap = none) ∧
      (after CrdtNode.handle node (bootstrapInputs bootstrap)).ops = node.ops := by
    rintro (_ | b)
    · exact ⟨id, rfl⟩
    · show ((node.installBootstrap b).1.bootstrap = none → _) ∧
        (node.installBootstrap b).1.ops = _
      have hspec := node.installBootstrap_spec b
      generalize node.installBootstrap b = result at hspec ⊢
      cases hspec with
      | installed _ _ _ _ => simp
      | _ => exact ⟨id, rfl⟩
  have hdeliver : ∀ (n : CrdtNode) (l : List CrdtOp),
      (after CrdtNode.handle n (deliveries l)).bootstrap = n.bootstrap := by
    intro n l
    refine after_induction CrdtNode.handle (P := fun m => m.bootstrap = n.bootstrap) rfl ?_
    intro m input hinput hm
    obtain ⟨op, -, rfl⟩ := List.mem_map.mp hinput
    exact (m.apply_bootstrap op).trans hm
  rw [syncRound, receive, after_append]
  obtain ⟨hnone, hops⟩ := hinstall (answer opts server node).bootstrap
  refine ⟨fun h => hnone (by rwa [hdeliver] at h), fun k held hheld => ?_⟩
  exact CrdtNode.deliver_held _ (by rwa [hops])

/-- A round that does not move the clock will be repeated as it was. -/
theorem syncRound_stuck (hlive : continues opts server node = true)
    (hbad : ¬ Progresses server node) :
    continues opts server (syncRound opts server node) = true ∧
      ¬ Progresses server (syncRound opts server node) := by
  have hclock : (syncRound opts server node).clock = node.clock := by
    rcases round_clock hserver hnode hopen hlive with ⟨hgood, -⟩ | ⟨-, hsame⟩
    · exact absurd hgood hbad
    · exact hsame
  obtain ⟨hbootstrap, hheld⟩ := syncRound_frame opts server node
  have hasks : sendRead opts (syncRound opts server node) = sendRead opts node := by
    simp only [sendRead, CrdtNode.clockMessage, hclock]
  refine ⟨by rwa [continues, answer, hasks], ?_⟩
  rintro (⟨hnone, hempty, hbelow⟩ | ⟨op, hop, hseq, hdeps, hsmaller⟩)
  · refine hbad (.inl ⟨hbootstrap hnone, ?_, hclock ▸ hbelow⟩)
    rw [Std.ExtTreeMap.isEmpty_iff] at hempty ⊢
    ext k : 1
    cases hk : node.ops[k]? with
    | none => simp
    | some held =>
        obtain ⟨held', hheld', -⟩ := hheld k held hk
        simp [hempty] at hheld'
  · rw [hclock] at hseq hdeps
    refine hbad (.inr ⟨op, hop, hseq, hdeps, ?_⟩)
    cases hk : node.ops[key op]? with
    | none => rfl
    | some held =>
        obtain ⟨held', hheld', hle⟩ := hheld _ held hk
        simp only [hheld', Option.all_some, Ordering.isLT_iff_eq_lt] at hsmaller ⊢
        exact Std.TransCmp.lt_of_lt_of_isLE hsmaller hle

end Round

/-! ## When the loop ends -/

/-- What the server's clock still has over the replica's. -/
def lag (server node : CrdtNode) : Nat :=
  (server.clock.toList.map fun p => (p.2 - node.clock.getD p.1 0).toNat).sum

theorem lag_lt {server before later : CrdtNode} (hbefore : before.Inv)
    (hknown : server.CursorKnown later.clock) (hadvance : ClockAdvances before.clock later.clock) :
    lag server later < lag server before := by
  obtain ⟨hle, o, hlt⟩ := hadvance
  have hpos := hbefore.clock_canonical.getD_nonneg o
  refine List.sum_lt_sum _ _ (fun p _ => ?_) ?_
  · have hp := hle p.1
    omega
  · -- the origin that moved is in the server's clock, at least as far as the replica got
    cases hlookup : later.clock[o]? with
    | none =>
        rw [Std.ExtTreeMap.getD_eq_getD_getElem? (t := later.clock), hlookup,
          Option.getD_none] at hlt
        omega
    | some s =>
        have hs : later.clock.getD o 0 = s := by
          rw [Std.ExtTreeMap.getD_eq_getD_getElem?, hlookup, Option.getD_some]
        have hbound := hknown o s hlookup
        cases hserver : server.clock[o]? with
        | none =>
            rw [Std.ExtTreeMap.getD_eq_getD_getElem?, hserver, Option.getD_none] at hbound
            omega
        | some t =>
            rw [Std.ExtTreeMap.getD_eq_getD_getElem?, hserver, Option.getD_some] at hbound
            refine ⟨(o, t), Std.ExtTreeMap.mem_toList_iff_getElem?_eq_some.mpr hserver, ?_⟩
            simp only
            omega

theorem cursorKnown_of_continues {opts : ClientOpts} {server node : CrdtNode}
    (hserver : server.Inv) (hnode : node.Inv) (hlive : continues opts server node = true) :
    server.CursorKnown node.clock := by
  have hspec := answer_spec opts hserver hnode
  rw [continues] at hlive
  cases hspec with
  | install _ hknown _ _ _ _ _ => exact hknown
  | data _ hknown _ _ _ _ => exact hknown
  | ahead hstate _ _ _ => simp [hstate] at hlive
  | drained hstate _ _ _ _ _ => simp [hstate] at hlive

/-- The inputs a replica script may hold. -/
def CrdtInput.isLocal : CrdtInput → Bool
  | .apply _ | .installBootstrap _ => true
  | _ => false

theorem run_local_open {maxPending : Nat} {inputs : List CrdtInput}
    (hlocal : ∀ input ∈ inputs, input.isLocal = true) : (run maxPending inputs).Open := by
  refine after_induction CrdtNode.handle (P := CrdtNode.Open) ⟨rfl, rfl⟩ ?_
  intro n input hinput hn
  have hkind := hlocal input hinput
  cases input with
  | apply op => exact CrdtNode.apply_open hn op
  | installBootstrap b => exact CrdtNode.installBootstrap_open hn b
  | _ => simp [CrdtInput.isLocal] at hkind

theorem not_ends_of_stuck {opts : ClientOpts} {server node : CrdtNode} (hserver : server.Inv)
    (hnode : node.Inv) (hopen : node.Open) (hlive : continues opts server node = true)
    (hbad : ¬ Progresses server node) :
    ¬ Ends (continues opts server) (syncRound opts server) node := by
  refine not_ends_of_trapped (P := fun n => (n.Inv ∧ n.Open) ∧
    continues opts server n = true ∧ ¬ Progresses server n) ?_ ⟨⟨hnode, hopen⟩, hlive, hbad⟩
  rintro n ⟨⟨hn, hnopen⟩, hnlive, hnbad⟩
  exact ⟨hnlive, syncRound_keeps hn hnopen, syncRound_stuck hserver hn hnopen hnlive hnbad⟩

/-- **The loop of the client.**  Any server and any replica built from local inputs:
a round that the client follows with another one moves the clock exactly when
`Progresses` holds, and the loop ends exactly when it holds at every such round. -/
theorem sync_loop_iff (opts : ClientOpts) (maxPending maxPending' : Nat)
    (serverInputs localInputs : List CrdtInput)
    (hlocal : ∀ input ∈ localInputs, input.isLocal = true) :
    let server := run maxPending serverInputs
    let replica := run maxPending' localInputs
    (continues opts server replica = true →
      (ClockAdvances replica.clock (syncRound opts server replica).clock ↔
        Progresses server replica)) ∧
    (Ends (continues opts server) (syncRound opts server) replica ↔
      ∀ k, continues opts server ((syncRound opts server)^[k] replica) = true →
        Progresses server ((syncRound opts server)^[k] replica)) := by
  intro server replica
  have hserver : server.Inv := run_inv maxPending serverInputs
  have hreplica : replica.Inv := run_inv maxPending' localInputs
  have hopen : replica.Open := run_local_open hlocal
  refine ⟨round_advances_iff hserver hreplica hopen, ?_⟩
  refine ends_iff_progress (P := fun n => n.Inv ∧ n.Open) (lag server) ?_ ?_ ?_ ?_
    ⟨hreplica, hopen⟩
  · rintro n ⟨hn, hnopen⟩
    exact syncRound_keeps hn hnopen
  · rintro n ⟨hn, -⟩ hdead
    exact syncRound_idle hserver hn hdead
  · rintro n ⟨hn, hnopen⟩ hlive hgood hlater
    have hadvance := (round_advances_iff hserver hn hnopen hlive).mpr hgood
    have hnext : (syncRound opts server n).Inv ∧ (syncRound opts server n).Open :=
      syncRound_keeps hn hnopen
    exact lag_lt hn (cursorKnown_of_continues hserver hnext.1 hlater) hadvance
  · rintro n ⟨hn, hnopen⟩ hlive hbad
    exact syncRound_stuck hserver hn hnopen hlive hbad

theorem sync_loop_iff_fresh :
    let opts : ClientOpts := ⟨"doc", "s"⟩
    let server := run 8 [.apply ⟨"a", 1, ⟨[]⟩, []⟩, .apply ⟨"b", 1, ⟨[⟨"a", 1⟩]⟩, []⟩]
    let replica := run 1024 [.apply ⟨"a", 1, ⟨[]⟩, []⟩]
    ClockAdvances replica.clock (syncRound opts server replica).clock :=
  ((sync_loop_iff ⟨"doc", "s"⟩ 8 1024 _ _ (by decide)).1 (by decide)).mpr (by decide)

/-- A replica that started on its own operation meets a server with a bootstrap: the
bootstrap is refused, the rest is known already and the same read is sent forever. -/
theorem sync_loop_conflict :
    let opts : ClientOpts := ⟨"doc", "s"⟩
    let op : CrdtOp := ⟨"a", 1, ⟨[]⟩, []⟩
    let server := run 8 [.installBootstrap ⟨⟨[⟨"b", 1⟩]⟩, []⟩, .apply op]
    let replica := run 1024 [.apply op]
    (answer opts server replica).state = .bootstrapRequired ∧
      (syncRound opts server replica).clockMessage = replica.clockMessage ∧
      ¬ Ends (continues opts server) (syncRound opts server) replica := by
  refine ⟨by decide, by decide, ?_⟩
  exact not_ends_of_stuck (run_inv _ _) (run_inv _ _) ⟨by decide, by decide⟩ (by decide)
    (by decide)

end TautShape.Crdt
