import TautShape.Crdt.Read
/-!
# A reader that follows its cursor

One reader threads `next_cursor` through its reads while anything else happens to
the node.  The cursor is the clock of the last read, so it marks exactly the keys
integrated then: the next answer lists the keys above it, or, when a bootstrap
moved the floor before anything was integrated, the keys above the floor.
-/

namespace TautShape.Crdt

open TautShape.Lib

inductive ReaderEvent where
  | other (input : CrdtInput)
  | read (crdtId streamId : String)
deriving DecidableEq, Repr

/-- A node, the responses one reader got from it, and the keys that were integrated
at the last of its reads. -/
structure Reader where
  node : CrdtNode
  responses : List CrdtReadResponse
  atLastRead : BTreeSet OpKey

namespace Reader

def new (maxPending : Nat) : Reader where
  node := CrdtNode.new maxPending
  responses := []
  atLastRead := ∅

/-- `None` for the first read, the last response's `next_cursor` afterwards. -/
def cursor (r : Reader) : Option CrdtClock := r.responses.getLast?.map (·.nextCursor)

def returned (r : Reader) : List OpKey := r.responses.flatMap fun response =>
  response.ops.map key

def step (r : Reader) : ReaderEvent → Reader
  | .other input => { r with node := (r.node.handle input).1 }
  | .read crdtId streamId =>
      { r with
        responses := r.responses ++ [r.node.read ⟨crdtId, streamId, r.cursor⟩]
        atLastRead := r.node.integrated }

def run (maxPending : Nat) (events : List ReaderEvent) : Reader :=
  events.foldl step (new maxPending)

/-- The clock `m` marks the keys integrated at the last read. -/
structure Marks (r : Reader) (m : ClockMap) : Prop where
  canonical : CanonicalMap m
  le_clock : ∀ o, m.getD o 0 ≤ r.node.clock.getD o 0
  mem_iff : ∀ o s, ⟨o, s⟩ ∈ r.atLastRead ↔ r.node.floor.getD o 0 < s ∧ s ≤ m.getD o 0
  floor_le : (∀ o, r.node.floor.getD o 0 ≤ m.getD o 0) ∨ ∀ k, k ∉ r.atLastRead

structure Follows (r : Reader) : Prop where
  inv : r.node.Inv
  accepted : ∀ response ∈ r.responses, response.state ≠ .invalidCursor
  nodup : r.returned.Nodup
  mem_returned : ∀ k, k ∈ r.returned ↔ k ∈ r.atLastRead
  cursor : r.cursor = none ∧ (∀ k, k ∉ r.atLastRead) ∨
    ∃ m, r.cursor = some (clockValue m) ∧ r.Marks m

theorem follows_new (maxPending : Nat) : (new maxPending).Follows := by
  refine ⟨CrdtNode.inv_new maxPending, by simp [new], by simp [new, returned],
    by simp [new, returned], .inl ⟨rfl, by simp [new]⟩⟩

/-- An input moves the clock forward over a fixed floor, unless it is the bootstrap of
a node that holds nothing. -/
theorem handle_moves {n : CrdtNode} (hn : n.Inv) (input : CrdtInput) :
    ((n.handle input).1.floor = n.floor ∧
        ∀ o, n.clock.getD o 0 ≤ (n.handle input).1.clock.getD o 0) ∨
      n.bootstrap = none ∧ n.ops = ∅ := by
  cases input with
  | apply op => exact .inl ⟨n.apply_floor op, CrdtNode.apply_clock_le hn op⟩
  | installBootstrap b =>
      rw [CrdtNode.handle_installBootstrap]
      have hspec := n.installBootstrap_spec b
      generalize n.installBootstrap b = result at hspec ⊢
      cases hspec with
      | installed _ _ hnone hempty => exact .inr ⟨hnone, hempty⟩
      | _ => exact .inl ⟨rfl, fun _ => le_rfl⟩
  | «seal» => simp only [CrdtNode.handle]; split <;> exact .inl ⟨rfl, fun _ => le_rfl⟩
  | close error => simp only [CrdtNode.handle]; split <;> exact .inl ⟨rfl, fun _ => le_rfl⟩
  | read request => exact .inl ⟨rfl, fun _ => le_rfl⟩

theorem Marks.other {r : Reader} (hr : r.node.Inv) {m : ClockMap} (hm : r.Marks m)
    (input : CrdtInput) : (r.step (.other input)).Marks m := by
  have hinv := hr.handle input
  rcases handle_moves hr input with ⟨hfloor, hclock⟩ | ⟨hnone, hempty⟩
  · refine ⟨hm.canonical, fun o => (hm.le_clock o).trans (hclock o), ?_, ?_⟩
    · intro o s
      simp only [step, hfloor]
      exact hm.mem_iff o s
    · simp only [step, hfloor]
      exact hm.floor_le
  · -- nothing was integrated yet, so the mark is the empty clock
    have hzero : ∀ o, m.getD o 0 = 0 := by
      intro o
      have hle := hm.le_clock o
      rw [hr.clock_eq_of_fresh hnone hempty, Std.ExtTreeMap.getD_empty] at hle
      exact le_antisymm hle (hm.canonical.getD_nonneg o)
    have hnothing : ∀ k, k ∉ r.atLastRead := by
      rintro ⟨o, s⟩ hk
      have hbound := (hm.mem_iff o s).mp hk
      rw [hr.unbootstrapped hnone, Std.ExtTreeMap.getD_empty, hzero] at hbound
      omega
    refine ⟨hm.canonical, fun o => ?_, fun o s => iff_of_false (hnothing _) ?_, .inr hnothing⟩
    · rw [hzero]
      exact hinv.clock_canonical.getD_nonneg o
    · have hfloor := hinv.floor_canonical.getD_nonneg o
      rw [hzero]
      simp only [step]
      omega

theorem Follows.other {r : Reader} (h : r.Follows) (input : CrdtInput) :
    (r.step (.other input)).Follows := by
  refine ⟨h.inv.handle input, h.accepted, h.nodup, h.mem_returned, ?_⟩
  exact h.cursor.imp_right fun ⟨m, hcursor, hm⟩ => ⟨m, hcursor, hm.other h.inv input⟩

theorem Follows.integrated {r : Reader} (h : r.Follows) {k : OpKey} (hk : k ∈ r.atLastRead) :
    k ∈ r.node.integrated := by
  obtain ⟨o, s⟩ := k
  rcases h.cursor with ⟨-, hnothing⟩ | ⟨m, -, hm⟩
  · exact absurd hk (hnothing _)
  · obtain ⟨habove, hle⟩ := (hm.mem_iff o s).mp hk
    exact (h.inv.contiguous o s).mpr ⟨habove, hle.trans (hm.le_clock o)⟩

/-- The base of an answer tells the keys returned before from the others. -/
def Splits (r : Reader) (base : ClockMap) : Prop :=
  ∀ k ∈ r.node.integrated, k ∈ r.atLastRead ↔ k.seq ≤ base.getD k.origin 0

theorem Follows.splits_of_nothing {r : Reader} (h : r.Follows) (hnothing : ∀ k, k ∉ r.atLastRead)
    {base : ClockMap} (hbase : ∀ o, base.getD o 0 ≤ r.node.floor.getD o 0) : r.Splits base := by
  rintro ⟨o, s⟩ hk
  refine iff_of_false (hnothing _) ?_
  have habove := ((h.inv.contiguous o s).mp hk).1
  have hle := hbase o
  simp only
  omega

theorem Follows.splits_of_marks {r : Reader} (h : r.Follows) {m : ClockMap} (hm : r.Marks m) :
    r.Splits m := by
  rintro ⟨o, s⟩ hk
  rw [hm.mem_iff]
  exact and_iff_right ((h.inv.contiguous o s).mp hk).1

theorem Follows.answer {r : Reader} (h : r.Follows) (crdtId streamId : String) :
    ∃ base, r.Splits base ∧
      (r.node.read ⟨crdtId, streamId, r.cursor⟩).state ≠ .invalidCursor ∧
      (r.node.read ⟨crdtId, streamId, r.cursor⟩).nextCursor = r.node.clockMessage ∧
      (r.node.read ⟨crdtId, streamId, r.cursor⟩).ops = r.node.opsAbove base := by
  have hfloor := fun o => h.inv.floor_canonical.getD_nonneg o
  -- the clock the request parses to is known to the node and splits what it has
  obtain ⟨m, hcursor, hknown, hsplits, hbelow⟩ : ∃ m,
      CrdtNode.requestCursor ⟨crdtId, streamId, r.cursor⟩ = some m ∧ r.node.CursorKnown m ∧
      r.Splits m ∧ (r.node.belowFloor m = true → ∀ k, k ∉ r.atLastRead) := by
    rcases h.cursor with ⟨hnone, hnothing⟩ | ⟨m, hsome, hm⟩
    · refine ⟨∅, by rw [CrdtNode.requestCursor, hnone], by simp [CrdtNode.CursorKnown], ?_,
        fun _ => hnothing⟩
      exact h.splits_of_nothing hnothing fun o => by simpa using hfloor o
    · refine ⟨m, ?_, ?_, h.splits_of_marks hm, fun hbelow => ?_⟩
      · rw [CrdtNode.requestCursor, hsome]
        exact clockMap_clockValue hm.canonical
      · intro o s hos
        have hle := hm.le_clock o
        rwa [Std.ExtTreeMap.getD_eq_getD_getElem?, hos, Option.getD_some] at hle
      · obtain ⟨o, s, hos, hlt⟩ := CrdtNode.belowFloor_iff.mp hbelow
        refine hm.floor_le.resolve_left fun hle => ?_
        have hfloorLe := hle o
        rw [Std.ExtTreeMap.getD_eq_getD_getElem?, hos, Option.getD_some] at hfloorLe
        omega
  have hspec := r.node.read_spec ⟨crdtId, streamId, r.cursor⟩
  generalize r.node.read ⟨crdtId, streamId, r.cursor⟩ = result at hspec ⊢
  cases hspec with
  | malformed hmalformed => simp [hcursor] at hmalformed
  | ahead c hc hahead =>
      obtain rfl : m = c := by simpa [hcursor] using hc
      exact absurd hknown hahead
  | rebased c hc _ _ hlow _ =>
      obtain rfl : m = c := by simpa [hcursor] using hc
      refine ⟨r.node.floor, h.splits_of_nothing (hbelow hlow) fun _ => le_rfl, ?_, rfl, rfl⟩
      simp [CrdtNode.response]
  | data c hc _ _ _ =>
      obtain rfl : m = c := by simpa [hcursor] using hc
      exact ⟨m, hsplits, by simp [CrdtNode.response], rfl, rfl⟩
  | rebasedDrained c hc _ _ hlow _ hempty =>
      obtain rfl : m = c := by simpa [hcursor] using hc
      exact ⟨r.node.floor, h.splits_of_nothing (hbelow hlow) fun _ => le_rfl,
        (r.node.drainedResponse_state _).2.2, r.node.drainedResponse_nextCursor _,
        by rw [r.node.drainedResponse_ops, hempty]⟩
  | drained c hc _ _ hempty =>
      obtain rfl : m = c := by simpa [hcursor] using hc
      exact ⟨m, hsplits, (r.node.drainedResponse_state _).2.2,
        r.node.drainedResponse_nextCursor _, by rw [r.node.drainedResponse_ops, hempty]⟩

theorem Follows.read {r : Reader} (h : r.Follows) (crdtId streamId : String) :
    (r.step (.read crdtId streamId)).Follows := by
  obtain ⟨base, hsplits, hstate, hnext, hops⟩ := h.answer crdtId streamId
  have hreturned : (r.step (.read crdtId streamId)).returned =
      r.returned ++ (r.node.opsAbove base).map key := by
    simp [returned, step, hops]
  have hkeys : ∀ k, k ∈ (r.node.opsAbove base).map key ↔
      k ∈ r.node.integrated ∧ base.getD k.origin 0 < k.seq := by
    intro k
    simp [CrdtNode.opsAbove_keys h.inv.toWf, List.mem_filter]
  refine ⟨h.inv, ?_, ?_, ?_, .inr ⟨r.node.clock, ?_, ?_⟩⟩
  · intro response hresponse
    rcases List.mem_append.mp hresponse with hold | hnew
    · exact h.accepted response hold
    · exact List.mem_singleton.mp hnew ▸ hstate
  · rw [hreturned]
    refine h.nodup.append (CrdtNode.opsAbove_keys_nodup h.inv.toWf base) ?_
    intro k hold hnew
    obtain ⟨hk, hlt⟩ := (hkeys k).mp hnew
    exact absurd ((hsplits k hk).mp ((h.mem_returned k).mp hold)) (not_le.mpr hlt)
  · intro k
    rw [hreturned, List.mem_append, h.mem_returned, hkeys]
    show _ ↔ k ∈ r.node.integrated
    constructor
    · rintro (hold | ⟨hk, -⟩)
      · exact h.integrated hold
      · exact hk
    · intro hk
      rw [hsplits k hk]
      exact (le_or_gt k.seq (base.getD k.origin 0)).imp_right fun hlt => ⟨hk, hlt⟩
  · have hlast : (r.step (.read crdtId streamId)).cursor =
        some (r.node.read ⟨crdtId, streamId, r.cursor⟩).nextCursor := by
      simp [Reader.cursor, step]
    rw [hlast, hnext, CrdtNode.clockMessage]
  · exact ⟨h.inv.clock_canonical, fun _ => le_rfl, h.inv.contiguous, .inl h.inv.floor_le⟩

theorem follows_run (maxPending : Nat) (events : List ReaderEvent) :
    (run maxPending events).Follows := by
  induction events using List.reverseRecOn with
  | nil => exact follows_new maxPending
  | append_singleton front event ih =>
      rw [run, List.foldl_append]
      cases event with
      | other input => exact ih.other input
      | read crdtId streamId => exact ih.read crdtId streamId

end Reader

/-- **Exactly-once reads.**  No read of the reader is refused, no key is returned
twice, and what was returned are the keys integrated at its last read. -/
theorem reader_exactly_once (maxPending : Nat) (events : List ReaderEvent) :
    let r := Reader.run maxPending events
    (∀ response ∈ r.responses, response.state ≠ .invalidCursor) ∧ r.returned.Nodup ∧
      ∀ k, k ∈ r.returned ↔ k ∈ r.atLastRead := by
  intro r
  have h := Reader.follows_run maxPending events
  exact ⟨h.accepted, h.nodup, h.mem_returned⟩

end TautShape.Crdt
