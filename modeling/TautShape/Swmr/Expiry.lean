import TautShape.Swmr.Replica
import TautShape.Swmr.Store
/-!
# The expiry profile

A node that bounds what it retains and repairs no reader: where the swmr engine would send
the whole store with a reset, the profile only says that the reader has to refresh, and why.
A reader that does so starts over without a cursor.
-/

namespace TautShape.Swmr

open TautShape.Lib TautShape.Held
open TautShape.Log (Bytes StopWhen)

inductive SnapshotDeltaRefreshReason where
  | retentionExpired
  | invalidCursor
  | sourceChanged
deriving DecidableEq, Repr

structure SnapshotDeltaRefreshRequired where
  swmrId : String
  streamId : String
  reason : SnapshotDeltaRefreshReason
deriving DecidableEq, Repr

inductive SnapshotDeltaOutput where
  | core (output : SwmrOutput)
  | refreshRequired (refresh : SnapshotDeltaRefreshRequired)
deriving DecidableEq, Repr

def refreshReason : Option SwmrResetReason → SnapshotDeltaRefreshReason
  | some .retentionExceeded => .retentionExpired
  | some .invalidResumeSeq => .invalidCursor
  | some .producerRequested | none => .sourceChanged

def projectSnapshotDeltaOutput : SwmrOutput → SnapshotDeltaOutput
  | .readResponse response =>
      if response.state = .reset then
        .refreshRequired
          ⟨response.swmrId, response.streamId, refreshReason response.resetReason⟩
      else .core (.readResponse response)
  | output => .core output

structure SnapshotDeltaNode where
  core : SwmrNode

/-- The source panics where the bound is zero. -/
def SnapshotDeltaNode.new (stopWhen : StopWhen) (maxDeltas : Nat) : Option SnapshotDeltaNode :=
  if 0 < maxDeltas then some ⟨SwmrNode.new stopWhen (some maxDeltas)⟩ else none

def SnapshotDeltaNode.default : Option SnapshotDeltaNode := SnapshotDeltaNode.new .lastReader 64

def SnapshotDeltaNode.handle (n : SnapshotDeltaNode) (input : SwmrInput) :
    SnapshotDeltaNode × List SnapshotDeltaOutput :=
  let (core, out) := n.core.handle input
  (⟨core⟩, out.map projectSnapshotDeltaOutput)

/-! ## Readers -/

/-- A reader keeps what it is told and starts over when it has to refresh. -/
def Replica.follow (streamId : String) (r : Replica) : SnapshotDeltaOutput → Replica
  | .core (.readResponse response) => if response.streamId = streamId then r.receive response else r
  | .core _ => r
  | .refreshRequired refresh => if refresh.streamId = streamId then Replica.fresh else r

def copy (n : SnapshotDeltaNode) (streamId : String) (inputs : List SwmrInput) : Replica :=
  (outputs SnapshotDeltaNode.handle n inputs).flatten.foldl (Replica.follow streamId) Replica.fresh

/-- Every read of the stream carries the cursor of its reader's copy. -/
def Follows (n : SnapshotDeltaNode) (streamId : String) (inputs : List SwmrInput) : Prop :=
  ∀ front request, front ++ [.read streamId request] <+: inputs →
    request.cursor = (copy n streamId front).cursor

/-! ## What a cursor is told -/

structure Reached (published : List Published) (c : SwmrCursor) : Prop where
  stored : ∃ p ∈ published, p.epoch = c.epoch
  seq : c.seq ≤ (deltasOf published c.epoch).length

theorem Mirrors.reached {published : List Published} {r : Replica} {c : SwmrCursor}
    {s : SwmrSnapshot} (h : Mirrors published r c s) : Reached published c :=
  ⟨⟨_, h.isPublished, rfl⟩, h.known⟩

theorem Faithful.reached {published : List Published} {r : Replica} (h : Faithful published r)
    {c : SwmrCursor} (hc : r.cursor = some c) : Reached published c := by
  rcases h with rfl | ⟨c', s, hmirrors⟩
  · simp [Replica.fresh] at hc
  · obtain rfl := Option.some.inj (hmirrors.cursor.symm.trans hc)
    exact hmirrors.reached

theorem Reached.mono {published : List Published} {c : SwmrCursor} (h : Reached published c)
    (more : List Published) : Reached (published ++ more) c := by
  obtain ⟨⟨p, hp, hepoch⟩, hseq⟩ := h
  refine ⟨⟨p, List.mem_append_left _ hp, hepoch⟩, ?_⟩
  rw [deltasOf_append, List.length_append]
  omega

namespace SwmrNode

variable {n : SwmrNode} {published : List Published} {r : Replica}

/-- Only a producer's reset sets the reason that readers of an older epoch are told. -/
theorem handle_resetReason (h : n.resetReason.getD .producerRequested = .producerRequested)
    (input : SwmrInput) :
    (n.handle input).1.resetReason.getD .producerRequested = .producerRequested := by
  have hspec := n.handle_spec input
  generalize n.handle input = result at hspec ⊢
  cases hspec with
  | reset w reason detail hwrite =>
      rw [after_resetHeld SwmrNode.resetReason (fun _ _ => rfl)]
      rfl
  | _ => exact h

/-- Where a cursor stands when its reader has to start over. -/
inductive Behind (n : SwmrNode) (c : SwmrCursor) : SwmrResetReason → Prop
  | epoch (h : c.epoch < n.epoch) : Behind n c .producerRequested
  | retention (s : SwmrSnapshot) (hs : n.snapshot = some s) (hepoch : c.epoch = n.epoch)
      (hseq : c.seq < s.seq) : Behind n c .retentionExceeded

def whole (n : SwmrNode) : Replica :=
  ⟨n.currentCursor, n.snapshot, if n.snapshot.isSome then n.deltas else []⟩

/-- What a response to a cursor that was given out makes of its reader's copy. -/
inductive Advance (n : SwmrNode) (c : SwmrCursor) (a : SwmrReadResponse) : Prop
  /-- The reader starts over. -/
  | whole (reason : SwmrResetReason) (hbehind : n.Behind c reason) (hstate : a.state = .reset)
      (hreason : a.resetReason = some reason) (h : ∀ r : Replica, r.receive a = n.whole)
  /-- The reader is sent what it lacks, which may be nothing. -/
  | slice (s : SwmrSnapshot) (hs : n.snapshot = some s) (hepoch : c.epoch = n.epoch)
      (hfirst : s.seq ≤ c.seq) (hstate : a.state ≠ .reset)
      (hcaught : a.state ≠ .data → c.seq = n.head)
      (h : ∀ r : Replica, r.receive a = ⟨some ⟨n.head, n.epoch⟩, r.snapshot,
        r.deltas ++ n.deltas.drop (c.seq - s.seq).toNat⟩)

theorem receive_whole (r : Replica) (swmrId streamId : String) (reason : SwmrResetReason)
    (detail : Option Bytes) :
    r.receive (n.resetResponse swmrId streamId reason detail) = n.whole := by
  cases hs : n.snapshot <;>
    simp [Replica.receive, resetResponse, response, hs, whole, currentCursor]

theorem advance_of_resolve (h : Recorded published n)
    (hreason : n.resetReason.getD .producerRequested = .producerRequested) {c : SwmrCursor}
    (hc : Reached published c) {swmrId streamId : String} {timeoutMs : Option Int}
    {a : SwmrReadResponse} (ha : n.resolve swmrId streamId (some c) timeoutMs = some a) :
    n.Advance c a := by
  obtain ⟨⟨p, hp, hpoch⟩, hseq⟩ := hc
  have hpast := h.past p hp
  rw [resolve, Option.any_some, Option.any_some] at ha
  by_cases hold : c.epoch < n.epoch
  · rw [if_pos (by simpa using hold)] at ha
    obtain rfl := Option.some.inj ha
    exact .whole _ (.epoch hold) rfl (congrArg some hreason) fun r => receive_whole r ..
  · have hepoch : c.epoch = n.epoch := by omega
    rw [hepoch, ← h.head_eq] at hseq
    rw [if_neg (by simpa using hold), if_neg (by simp [hepoch])] at ha
    cases hs : n.snapshot with
    | none =>
        -- of this epoch nothing was published
        have hlt := (h.empty hs).2 p hp
        omega
    | some s =>
        rw [hs] at ha
        have hhead : n.head = s.seq + n.deltas.length := by rw [head, hs]
        simp only at ha
        split_ifs at ha with hretained hcaught hahead
        · obtain rfl := Option.some.inj ha
          exact .whole _ (.retention s hs hepoch hretained) rfl rfl fun r => receive_whole r ..
        · obtain ⟨hdata, hreset⟩ := caughtUp_state ha
          refine .slice s hs hepoch (by omega) hreset (fun _ => hcaught) fun r => ?_
          rw [receive_caughtUp r ha, List.drop_eq_nil_of_le (by omega), List.append_nil]
        · omega
        · obtain rfl := Option.some.inj ha
          refine .slice s hs hepoch (by omega) (by simp [response]) (by simp [response])
            fun r => ?_
          simp [Replica.receive, response, currentCursor, hs]

theorem start_of_resolve {swmrId streamId : String} {timeoutMs : Option Int}
    {a : SwmrReadResponse} (ha : n.resolve swmrId streamId none timeoutMs = some a) :
    a.state ≠ .reset ∧ (a.state ≠ .data → n.snapshot = none) ∧
      Replica.fresh.receive a = n.whole := by
  simp only [resolve, Option.any_none, Bool.false_eq_true, if_false] at ha
  cases hs : n.snapshot with
  | none =>
      rw [hs] at ha
      obtain ⟨-, hreset⟩ := caughtUp_state ha
      refine ⟨hreset, fun _ => rfl, ?_⟩
      rw [receive_caughtUp _ ha]
      simp [whole, currentCursor, hs, Replica.fresh]
  | some s =>
      rw [hs] at ha
      obtain rfl := Option.some.inj ha
      exact ⟨by simp [response], by simp [response],
        by simp [Replica.receive, response, whole, currentCursor, hs]⟩

/-- A reader that threads its cursors is reset because the epoch ended or because the
snapshot moved past it, and for no other reason. -/
theorem behind_of_reset (h : Recorded published n)
    (hreason : n.resetReason.getD .producerRequested = .producerRequested)
    {cursor : Option SwmrCursor} (hcursor : ∀ c, cursor = some c → Reached published c)
    {swmrId streamId : String} {timeoutMs : Option Int} {a : SwmrReadResponse}
    (ha : n.resolve swmrId streamId cursor timeoutMs = some a) (hreset : a.state = .reset) :
    ∃ c reason, cursor = some c ∧ a.resetReason = some reason ∧ n.Behind c reason := by
  cases cursor with
  | none => exact absurd hreset (start_of_resolve ha).1
  | some c =>
      cases advance_of_resolve h hreason (hcursor c rfl) ha with
      | whole reason hbehind hstate hsaid => exact ⟨c, reason, rfl, hsaid, hbehind⟩
      | slice s hs hepoch hfirst hstate => exact absurd hreset hstate

theorem told_of_handle (hwf : n.readers.Wf) (hsound : n.readers.desk.Sound)
    (hsettled : n.readers.desk.Settled n.policy) {streamId : String} {cursor : Option SwmrCursor}
    (hheld : ∀ read, n.readers.heldOf streamId = some read → read.request.cursor = cursor)
    {input : SwmrInput}
    (hasked : ∀ request, input = .read streamId request → request.cursor = cursor) :
    (∃ a swmrId timeoutMs, responsesTo streamId (n.handle input).2 = [a] ∧
        (n.handle input).1.resolve swmrId streamId cursor timeoutMs = some a ∧
        (n.handle input).1.readers.heldOf streamId = none) ∨
      (responsesTo streamId (n.handle input).2 = [] ∧
        ∀ read, (n.handle input).1.readers.heldOf streamId = some read →
          read.request.cursor = cursor) := by
  have hkept : ∀ k, n.readers.desk.kept streamId = some k → k.request.cursor = cursor := by
    intro k hk
    obtain ⟨read, hread, heq⟩ := Streams.held_of_kept hk
    rw [← heq]
    exact hheld read hread
  have hask : ∀ request, input.ask = .read streamId request → request.cursor = cursor := by
    intro request hask
    cases input with
    | read id request' =>
        obtain ⟨rfl, rfl⟩ := Ask.read.inj hask
        exact hasked _ rfl
    | _ => simp [SwmrInput.ask] at hask
  rw [responsesTo_eq_told]
  cases (handle_turn hwf hsound hsettled input).outcome hsound streamId with
  | told a hheard htold hgone =>
      refine .inl ?_
      have hnone : (n.handle input).1.readers.heldOf streamId = none := by
        simpa [Streams.desk] using hgone
      have hanswer : ∃ swmrId timeoutMs,
          (n.handle input).1.resolve swmrId streamId cursor timeoutMs = some a := by
        generalize input.ask = ask at hheard hask
        cases hheard with
        | read request ha =>
            refine ⟨request.swmrId, request.timeoutMs, ?_⟩
            rw [← hask request rfl]
            exact ha
        | wake k hk ha =>
            refine ⟨k.request.swmrId, k.request.timeoutMs, ?_⟩
            rw [← hkept k hk]
            exact ha
        | expire k hk t ha =>
            refine ⟨k.request.swmrId, some 0, ?_⟩
            rw [← hkept k hk]
            exact ha
      obtain ⟨swmrId, timeoutMs, ha⟩ := hanswer
      exact ⟨a, swmrId, timeoutMs, htold, ha, hnone⟩
  | untold htold hstays =>
      refine .inr ⟨htold, fun read hread => ?_⟩
      rcases hstays read.kept (by simp [Streams.desk, hread]) with hold | hnew
      · exact hkept read.kept hold
      · exact hask read.request hnew

end SwmrNode

section Later

variable {n : SwmrNode} {published more : List Published} {r : Replica}

theorem Recorded.faithful_whole (h : Recorded published n) : Faithful published n.whole := by
  cases hs : n.snapshot with
  | none => exact .inl (by simp [SwmrNode.whole, SwmrNode.currentCursor, hs, Replica.fresh])
  | some s =>
      have hwhole : n.whole = ⟨n.currentCursor, some s, n.deltas⟩ := by simp [SwmrNode.whole, hs]
      rw [hwhole]
      exact .inr ⟨_, s, h.mirrors hs⟩

theorem Recorded.receive_faithful (h : Recorded published n)
    (hreason : n.resetReason.getD .producerRequested = .producerRequested)
    (hr : Faithful (published ++ more) r) (hreached : ∀ c, r.cursor = some c → Reached published c)
    {swmrId streamId : String} {timeoutMs : Option Int} {a : SwmrReadResponse}
    (ha : n.resolve swmrId streamId r.cursor timeoutMs = some a) :
    Faithful (published ++ more) (r.receive a) := by
  rcases hr with rfl | ⟨c, s, hmirrors⟩
  · rw [(SwmrNode.start_of_resolve ha).2.2]
    exact h.faithful_whole.mono more
  rw [hmirrors.cursor] at ha
  have hc := hreached c hmirrors.cursor
  cases SwmrNode.advance_of_resolve h hreason hc ha with
  | whole reason hbehind hstate hsaid hwhole =>
      rw [hwhole]
      exact h.faithful_whole.mono more
  | slice s' hs' hepoch hretained hstate hcaught hslice =>
      obtain ⟨-, hpos, -, hdeltas⟩ := h.stored s' hs'
      have hfirst := hmirrors.first
      have horder := hmirrors.order
      have hhead := h.head_eq
      have hseq := hc.seq
      rw [hepoch] at hseq
      have hold := hmirrors.deltas
      rw [hepoch, deltasOf_append, window_of_append (by omega)] at hold
      have hnew : (n.deltas.drop (c.seq - s'.seq).toNat).map SwmrDelta.item =
          window (deltasOf published n.epoch) c.seq.toNat (deltasOf published n.epoch).length := by
        rw [List.map_drop, hdeltas, List.drop_drop, window_full]
        congr 1
        omega
      have hlast : n.head.toNat = (deltasOf published n.epoch).length := by
        rw [hhead, Int.toNat_natCast]
      rw [hslice]
      refine .inr ⟨⟨n.head, n.epoch⟩, s, ⟨rfl, hmirrors.snapshot, ?_, hfirst, ?_, ?_, ?_⟩⟩
      · exact hepoch ▸ hmirrors.isPublished
      · simp only
        omega
      · simp only
        rw [deltasOf_append, List.length_append]
        omega
      · simp only
        rw [List.map_append, hold, hnew, deltasOf_append, window_of_append (by omega), hlast]
        exact window_append (by omega) (by omega) le_rfl

end Later

/-! ## Runs -/

/-- What the projection leaves of the responses to a stream. -/
def Replica.receiveOrRefresh (r : Replica) (response : SwmrReadResponse) : Replica :=
  if response.state = .reset then Replica.fresh else r.receive response

theorem follow_project (streamId : String) (out : List SwmrOutput) (r : Replica) :
    (out.map projectSnapshotDeltaOutput).foldl (Replica.follow streamId) r =
      (responsesTo streamId out).foldl Replica.receiveOrRefresh r := by
  induction out generalizing r with
  | nil => rfl
  | cons o rest ih =>
      rw [List.map_cons, List.foldl_cons, ih]
      cases o with
      | readResponse response =>
          by_cases hid : response.streamId = streamId <;>
            by_cases hreset : response.state = .reset <;>
            simp [projectSnapshotDeltaOutput, Replica.follow, Replica.receiveOrRefresh,
              responsesTo, hid, hreset]
      | _ => rfl

theorem Faithful.receiveOrRefresh {published : List Published} {n : SwmrNode} {r : Replica}
    (hr : Faithful published r) (h : Recorded published n) {swmrId streamId : String}
    {timeoutMs : Option Int} {a : SwmrReadResponse}
    (ha : n.resolve swmrId streamId r.cursor timeoutMs = some a) :
    Faithful published (r.receiveOrRefresh a) := by
  rw [Replica.receiveOrRefresh]
  split
  · exact .inl rfl
  · exact receive_faithful h hr ha

theorem Tracks.project {published : List Published} {streamId : String} {r : Replica}
    {n : SwmrNode} (h : Tracks published streamId r n) (hrecorded : Recorded published n)
    (hwf : n.readers.Wf) (hsound : n.readers.desk.Sound)
    (hsettled : n.readers.desk.Settled n.policy) {input : SwmrInput}
    (hthreads : ∀ request, input = .read streamId request → request.cursor = r.cursor) :
    Tracks (published ++ (publishedBy input (n.handle input)).toList) streamId
      (((n.handle input).2.map projectSnapshotDeltaOutput).foldl (Replica.follow streamId) r)
      (n.handle input).1 := by
  have hrecorded' := hrecorded.handle hsettled input
  have hfaithful := h.faithful.mono (publishedBy input (n.handle input)).toList
  rw [follow_project]
  rcases SwmrNode.told_of_handle hwf hsound hsettled h.held hthreads with
    ⟨a, swmrId, timeoutMs, htold, ha, hgone⟩ | ⟨htold, hstays⟩
  · rw [htold, List.foldl_cons, List.foldl_nil]
    refine ⟨hfaithful.receiveOrRefresh hrecorded' ha, fun read hread => ?_⟩
    rw [hgone] at hread
    simp at hread
  · rw [htold, List.foldl_nil]
    exact ⟨hfaithful, hstays⟩

theorem Tracks.behind {published : List Published} {streamId : String} {r : Replica}
    {n : SwmrNode} (h : Tracks published streamId r n) (hrecorded : Recorded published n)
    (hwf : n.readers.Wf) (hsound : n.readers.desk.Sound)
    (hsettled : n.readers.desk.Settled n.policy) {input : SwmrInput}
    (hreason : n.resetReason.getD .producerRequested = .producerRequested)
    (hthreads : ∀ request, input = .read streamId request → request.cursor = r.cursor)
    {response : SwmrReadResponse} (hout : .readResponse response ∈ (n.handle input).2)
    (hid : response.streamId = streamId) (hreset : response.state = .reset) :
    ∃ c reason, r.cursor = some c ∧ response.resetReason = some reason ∧
      (n.handle input).1.Behind c reason := by
  have hmem : response ∈ responsesTo streamId (n.handle input).2 :=
    List.mem_filterMap.mpr ⟨_, hout, if_pos hid⟩
  rcases SwmrNode.told_of_handle hwf hsound hsettled h.held hthreads with
    ⟨a, swmrId, timeoutMs, htold, ha, -⟩ | ⟨htold, -⟩
  · rw [htold, List.mem_singleton] at hmem
    subst hmem
    exact SwmrNode.behind_of_reset (hrecorded.handle hsettled input)
      (SwmrNode.handle_resetReason hreason input)
      (fun c hc => (h.faithful.reached hc).mono _) ha hreset
  · rw [htold] at hmem
    simp at hmem

theorem after_core (n : SnapshotDeltaNode) (inputs : List SwmrInput) :
    (after SnapshotDeltaNode.handle n inputs).core = after SwmrNode.handle n.core inputs := by
  induction inputs generalizing n with
  | nil => rfl
  | cons input rest ih =>
      rw [after_cons, after_cons, ih]
      rfl

theorem copy_concat (n : SnapshotDeltaNode) (streamId : String) (front : List SwmrInput)
    (input : SwmrInput) :
    copy n streamId (front ++ [input]) =
      (((after SwmrNode.handle n.core front).handle input).2.map
        projectSnapshotDeltaOutput).foldl (Replica.follow streamId) (copy n streamId front) := by
  rw [copy, outputs_append, List.flatten_append, List.foldl_append, ← after_core]
  simp only [outputs, List.flatten_cons, List.flatten_nil, List.append_nil]
  rfl

theorem core_of_new {stopWhen : StopWhen} {maxDeltas : Nat} {n : SnapshotDeltaNode}
    (h : SnapshotDeltaNode.new stopWhen maxDeltas = some n) :
    n.core = SwmrNode.new stopWhen (some maxDeltas) := by
  rw [SnapshotDeltaNode.new] at h
  split_ifs at h
  obtain rfl := Option.some.inj h
  rfl

theorem run_resetReason (stopWhen : StopWhen) (maxDeltas : Option Nat) (inputs : List SwmrInput) :
    (run stopWhen maxDeltas inputs).resetReason.getD .producerRequested = .producerRequested := by
  refine after_induction SwmrNode.handle
    (P := fun n => n.resetReason.getD .producerRequested = .producerRequested) rfl ?_
  intro n input _ h
  exact SwmrNode.handle_resetReason h input

theorem run_follows {stopWhen : StopWhen} {maxDeltas : Nat} {n : SnapshotDeltaNode}
    (hn : SnapshotDeltaNode.new stopWhen maxDeltas = some n) {streamId : String}
    {inputs : List SwmrInput} (hfollows : Follows n streamId inputs) :
    Tracks (published stopWhen (some maxDeltas) inputs) streamId (copy n streamId inputs)
      (run stopWhen (some maxDeltas) inputs) := by
  have hcore := core_of_new hn
  induction inputs using List.reverseRecOn with
  | nil =>
      refine ⟨.inl rfl, fun read hread => ?_⟩
      simp [run, SwmrNode.new, Streams.new, Streams.heldOf] at hread
  | append_singleton front input ih =>
      have hstands := run_stands stopWhen (some maxDeltas) front
      rw [published_concat, copy_concat, run_concat, hcore]
      refine (ih ?_).project (run_recorded stopWhen (some maxDeltas) front) hstands.inv
        hstands.sound hstands.settled ?_
      · exact fun front' request hfront => hfollows front' request
          (hfront.trans (List.prefix_append front [input]))
      · rintro request rfl
        exact hfollows front request List.prefix_rfl

/-- **The expiry profile.**  A reader of a stream that goes on from its copy's cursor, and
from none once it has to refresh, has at every moment an empty copy or a published snapshot
with exactly the deltas after it.  It never sees a reset; it has to refresh only because the
epoch of its cursor ended or because the snapshot moved past its cursor, and is told which
of the two it was. -/
theorem snapshot_delta_refreshes (stopWhen : StopWhen) (maxDeltas : Nat) (n : SnapshotDeltaNode)
    (hn : SnapshotDeltaNode.new stopWhen maxDeltas = some n) (streamId : String)
    (inputs : List SwmrInput) (hfollows : Follows n streamId inputs) :
    Faithful (published stopWhen (some maxDeltas) inputs) (copy n streamId inputs) ∧
    (after SnapshotDeltaNode.handle n inputs).core.deltas.length ≤ maxDeltas ∧
    ∀ front input, front ++ [input] <+: inputs →
      let core := (after SnapshotDeltaNode.handle n (front ++ [input])).core
      ∀ o ∈ ((after SnapshotDeltaNode.handle n front).handle input).2,
        (∀ a, o = .core (.readResponse a) → a.state ≠ .reset) ∧
        ∀ refresh, o = .refreshRequired refresh → refresh.streamId = streamId →
          ∃ c, (copy n streamId front).cursor = some c ∧
            (refresh.reason = .sourceChanged ∧ c.epoch < core.epoch ∨
              refresh.reason = .retentionExpired ∧ c.epoch = core.epoch ∧
                ∃ s, core.snapshot = some s ∧ c.seq < s.seq) := by
  have hcore := core_of_new hn
  have hrun : ∀ inputs, (after SnapshotDeltaNode.handle n inputs).core =
      run stopWhen (some maxDeltas) inputs := by
    intro inputs
    rw [after_core, hcore]
    rfl
  refine ⟨(run_follows hn hfollows).faithful, ?_, fun front input hfront => ?_⟩
  · rw [hrun]
    exact (run_stored stopWhen (some maxDeltas) inputs).bounded maxDeltas
      (run_maxDeltas stopWhen (some maxDeltas) inputs)
  intro core o ho
  have hstands := run_stands stopWhen (some maxDeltas) front
  have hfollowed : Follows n streamId front := fun front' request hwithin =>
    hfollows front' request (hwithin.trans ((List.prefix_append front [input]).trans hfront))
  have htracks := run_follows hn hfollowed
  have hthreads : ∀ request, input = .read streamId request →
      request.cursor = (copy n streamId front).cursor := by
    rintro request rfl
    exact hfollows front request hfront
  have hcore' : core = ((run stopWhen (some maxDeltas) front).handle input).1 := by
    rw [← run_concat]
    exact hrun _
  obtain ⟨output, houtput, rfl⟩ : ∃ output ∈ ((run stopWhen (some maxDeltas) front).handle input).2,
      projectSnapshotDeltaOutput output = o := by
    have hmem : o ∈ ((after SnapshotDeltaNode.handle n front).core.handle input).2.map
        projectSnapshotDeltaOutput := ho
    rw [hrun] at hmem
    exact List.mem_map.mp hmem
  cases output with
  | readResponse response =>
      rw [projectSnapshotDeltaOutput]
      split
      · rename_i hreset
        refine ⟨by simp, fun refresh heq hid => ?_⟩
        obtain rfl := SnapshotDeltaOutput.refreshRequired.inj heq
        obtain ⟨c, reason, hcursor, hsaid, hbehind⟩ := htracks.behind
          (run_recorded stopWhen (some maxDeltas) front) hstands.inv hstands.sound hstands.settled
          (run_resetReason stopWhen (some maxDeltas) front) hthreads houtput hid hreset
        refine ⟨c, hcursor, ?_⟩
        rw [hcore']
        simp only [hsaid]
        cases hbehind with
        | epoch hold => exact .inl ⟨rfl, hold⟩
        | retention s hs hepoch hseq => exact .inr ⟨rfl, hepoch, s, hs, hseq⟩
      · rename_i hreset
        refine ⟨fun a heq => ?_, by simp⟩
        obtain rfl := Output.readResponse.inj (SnapshotDeltaOutput.core.inj heq)
        exact hreset
  | _ => exact ⟨by simp [projectSnapshotDeltaOutput], by simp [projectSnapshotDeltaOutput]⟩

theorem Follows.concat {n : SnapshotDeltaNode} {streamId : String} {front : List SwmrInput}
    (h : Follows n streamId front) (input : SwmrInput)
    (hlast : ∀ request, input = .read streamId request →
      request.cursor = (copy n streamId front).cursor) : Follows n streamId (front ++ [input]) := by
  intro front' request hfirst
  rcases List.prefix_concat_iff.mp hfirst with heq | hfront
  · obtain ⟨rfl, hinput⟩ := List.append_inj' heq rfl
    exact hlast request (List.singleton_inj.mp hinput).symm
  · exact h front' request hfront

/-- A reader whose snapshot was replaced while it was away. -/
theorem snapshot_delta_refreshes_retention :
    let n : SnapshotDeltaNode := ⟨SwmrNode.new .lastReader (some 1)⟩
    let inputs : List SwmrInput := [.snapshotPush "w" [1], .read "s" ⟨"a", none, none⟩,
      .deltaPush "w" [2], .snapshotPush "w" [3], .read "s" ⟨"a", some ⟨0, 0⟩, none⟩]
    (outputs SnapshotDeltaNode.handle n inputs).getLast? =
        some [.refreshRequired ⟨"a", "s", .retentionExpired⟩] ∧
      copy n "s" inputs = Replica.fresh ∧
      Faithful (published .lastReader (some 1) inputs) (copy n "s" inputs) := by
  intro n inputs
  have hnil : Follows n "s" [] := fun front request hfirst => by simp at hfirst
  have hfirst := hnil.concat (.snapshotPush "w" [1]) (by simp)
  have hread := hfirst.concat (.read "s" ⟨"a", none, none⟩) fun request heq => by
    obtain rfl := (SwmrInput.read.inj heq).2
    decide
  have hdelta := hread.concat (.deltaPush "w" [2]) (by simp)
  have hsecond := hdelta.concat (.snapshotPush "w" [3]) (by simp)
  have hfollows := hsecond.concat (.read "s" ⟨"a", some ⟨0, 0⟩, none⟩) fun request heq => by
    obtain rfl := (SwmrInput.read.inj heq).2
    decide
  exact ⟨by decide, by decide,
    (snapshot_delta_refreshes .lastReader 1 n rfl "s" inputs hfollows).1⟩

end TautShape.Swmr
