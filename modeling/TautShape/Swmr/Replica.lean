import TautShape.Swmr.History
/-!
# Replicas

A reader that threads the cursors it gets and keeps a copy of what it is told.  At every
moment the copy is a snapshot that was published and exactly the deltas published after
it, up to the reader's cursor.
-/

namespace TautShape.Swmr

open TautShape.Lib TautShape.Held
open TautShape.Log (Bytes StopWhen)

structure Replica where
  cursor : Option SwmrCursor
  snapshot : Option SwmrSnapshot
  deltas : List SwmrDelta
deriving DecidableEq, Repr

def Replica.fresh : Replica := ⟨none, none, []⟩

/-- A snapshot replaces the copy, deltas are appended to it, a bare reset discards it. -/
def Replica.receive (r : Replica) (response : SwmrReadResponse) : Replica :=
  match response.snapshot, response.state with
  | some snapshot, _ => ⟨response.nextCursor, some snapshot, response.deltas⟩
  | none, .data => ⟨response.nextCursor, r.snapshot, r.deltas ++ response.deltas⟩
  | none, .reset => ⟨response.nextCursor, none, []⟩
  | none, _ => ⟨response.nextCursor, r.snapshot, r.deltas⟩

def responsesTo (streamId : String) (out : List SwmrOutput) : List SwmrReadResponse :=
  out.filterMap fun
    | .readResponse response => if response.streamId = streamId then some response else none
    | _ => none

def replica (stopWhen : StopWhen) (maxDeltas : Option Nat) (streamId : String)
    (inputs : List SwmrInput) : Replica :=
  (responsesTo streamId
    (outputs SwmrNode.handle (SwmrNode.new stopWhen maxDeltas) inputs).flatten).foldl
      Replica.receive Replica.fresh

/-- Every read of the stream carries the cursor that its reader got last. -/
def Threads (stopWhen : StopWhen) (maxDeltas : Option Nat) (streamId : String)
    (inputs : List SwmrInput) : Prop :=
  ∀ front request, front ++ [.read streamId request] <+: inputs →
    request.cursor = (replica stopWhen maxDeltas streamId front).cursor

/-! ## One response -/

/-- The copy is a published snapshot with the deltas after it, up to the cursor. -/
structure Mirrors (published : List Published) (r : Replica) (c : SwmrCursor)
    (s : SwmrSnapshot) : Prop where
  cursor : r.cursor = some c
  snapshot : r.snapshot = some s
  isPublished : .snapshot c.epoch s.seq s.payload ∈ published
  first : 0 ≤ s.seq
  order : s.seq ≤ c.seq
  known : c.seq ≤ (deltasOf published c.epoch).length
  deltas : r.deltas.map SwmrDelta.item =
    window (deltasOf published c.epoch) s.seq.toNat c.seq.toNat

/-- A copy is empty or mirrors a store of its epoch. -/
def Faithful (published : List Published) (r : Replica) : Prop :=
  r = Replica.fresh ∨ ∃ c s, Mirrors published r c s

theorem Mirrors.mono {published : List Published} {r : Replica} {c : SwmrCursor}
    {s : SwmrSnapshot} (h : Mirrors published r c s) (more : List Published) :
    Mirrors (published ++ more) r c s := by
  have hknown := h.known
  refine ⟨h.cursor, h.snapshot, List.mem_append_left _ h.isPublished, h.first, h.order, ?_, ?_⟩
  · rw [deltasOf_append, List.length_append]
    omega
  · rw [deltasOf_append, window_of_append (by omega)]
    exact h.deltas

theorem Faithful.mono {published : List Published} {r : Replica} (h : Faithful published r)
    (more : List Published) : Faithful (published ++ more) r := by
  rcases h with hfresh | ⟨c, s, hmirrors⟩
  · exact .inl hfresh
  · exact .inr ⟨c, s, hmirrors.mono more⟩

section Responses

variable {published : List Published} {n : SwmrNode} {r : Replica}

theorem Recorded.mirrors (h : Recorded published n) {s : SwmrSnapshot}
    (hs : n.snapshot = some s) :
    Mirrors published ⟨n.currentCursor, some s, n.deltas⟩ ⟨n.head, n.epoch⟩ s := by
  obtain ⟨hmem, hpos, hle, hdeltas⟩ := h.stored s hs
  have hhead := h.head_eq
  refine ⟨by simp [SwmrNode.currentCursor, hs], rfl, hmem, hpos, by simp only; omega,
    by simp only; omega, ?_⟩
  simp only
  rw [hhead, Int.toNat_natCast, window_full]
  exact hdeltas

theorem receive_reset (h : Recorded published n) (swmrId streamId : String)
    (reason : SwmrResetReason) (detail : Option Bytes) :
    Faithful published (r.receive (n.resetResponse swmrId streamId reason detail)) := by
  cases hs : n.snapshot with
  | none =>
      refine .inl ?_
      simp [Replica.receive, SwmrNode.resetResponse, response, hs, SwmrNode.currentCursor,
        Replica.fresh]
  | some s =>
      refine .inr ⟨⟨n.head, n.epoch⟩, s, ?_⟩
      have hreceive : r.receive (n.resetResponse swmrId streamId reason detail) =
          ⟨n.currentCursor, some s, n.deltas⟩ := by
        simp [Replica.receive, SwmrNode.resetResponse, response, hs]
      rw [hreceive]
      exact h.mirrors hs

theorem receive_caughtUp (r : Replica) {swmrId streamId : String} {next : Option SwmrCursor}
    {timeoutMs : Option Int} {a : SwmrReadResponse}
    (ha : n.caughtUp swmrId streamId next timeoutMs = some a) :
    r.receive a = ⟨next, r.snapshot, r.deltas⟩ := by
  unfold SwmrNode.caughtUp at ha
  split at ha
  · split at ha <;> exact Option.some.inj ha ▸ rfl
  · split at ha
    · exact Option.some.inj ha ▸ rfl
    · split at ha
      · exact Option.some.inj ha ▸ rfl
      · simp at ha

theorem caughtUp_state {swmrId streamId : String} {next : Option SwmrCursor}
    {timeoutMs : Option Int} {a : SwmrReadResponse}
    (ha : n.caughtUp swmrId streamId next timeoutMs = some a) :
    a.state ≠ .data ∧ a.state ≠ .reset := by
  unfold SwmrNode.caughtUp at ha
  split at ha
  · split at ha <;> exact Option.some.inj ha ▸ by simp [response]
  · split at ha
    · exact Option.some.inj ha ▸ by simp [response]
    · split at ha
      · exact Option.some.inj ha ▸ by simp [response]
      · simp at ha

/-- Every answer of the store to the reader's own cursor keeps the copy faithful. -/
theorem receive_faithful (h : Recorded published n) (hr : Faithful published r)
    {swmrId streamId : String} {timeoutMs : Option Int} {a : SwmrReadResponse}
    (ha : n.resolve swmrId streamId r.cursor timeoutMs = some a) :
    Faithful published (r.receive a) := by
  unfold SwmrNode.resolve at ha
  split at ha
  · exact Option.some.inj ha ▸ receive_reset h swmrId streamId _ _
  rename_i hold
  split at ha
  · exact Option.some.inj ha ▸ receive_reset h swmrId streamId _ _
  rename_i hnew
  split at ha
  · rename_i hnone
    -- a cursor would be of this epoch, of which nothing was published
    rcases hr with hfresh | ⟨c, s, hmirrors⟩
    · refine .inl ?_
      rw [receive_caughtUp r ha, hfresh]
      rfl
    · have hpast := (h.empty hnone).2 _ hmirrors.isPublished
      simp only [hmirrors.cursor, Option.any_some, decide_eq_true_eq] at hold
      exact absurd hpast hold
  rename_i s hs
  split at ha
  · obtain rfl := Option.some.inj ha
    exact .inr ⟨_, s, h.mirrors hs⟩
  rename_i c hcursor
  rcases hr with hfresh | ⟨c', s', hmirrors⟩
  · rw [hfresh] at hcursor
    simp [Replica.fresh] at hcursor
  obtain rfl : c' = c := Option.some.inj (hmirrors.cursor.symm.trans hcursor)
  have hepoch : c'.epoch = n.epoch := by
    simp only [hcursor, Option.any_some, decide_eq_true_eq, gt_iff_lt, not_lt] at hold hnew
    omega
  split at ha
  · exact Option.some.inj ha ▸ receive_reset h swmrId streamId _ _
  rename_i hretained
  split at ha
  · rename_i hseq
    refine .inr ⟨c', s', ?_⟩
    have hnext : (⟨n.head, n.epoch⟩ : SwmrCursor) = c' := by rw [← hseq, ← hepoch]
    rw [receive_caughtUp r ha, hnext]
    exact { hmirrors with cursor := rfl }
  split at ha
  · exact Option.some.inj ha ▸ receive_reset h swmrId streamId _ _
  rename_i hne hle
  obtain rfl := Option.some.inj ha
  -- the slice of the store is the window that the copy lacks
  obtain ⟨-, hpos, hstored, hdeltas⟩ := h.stored s hs
  have hhead := h.head_eq
  have hfirst := hmirrors.first
  have horder := hmirrors.order
  have hold' := hmirrors.deltas
  rw [hepoch] at hold'
  have hslice : (n.deltas.drop (c'.seq - s.seq).toNat).map SwmrDelta.item =
      window (deltasOf published n.epoch) c'.seq.toNat (deltasOf published n.epoch).length := by
    rw [List.map_drop, hdeltas, List.drop_drop, window_full]
    congr 1
    omega
  have hlast : n.head.toNat = (deltasOf published n.epoch).length := by
    rw [hhead, Int.toNat_natCast]
  refine .inr ⟨⟨n.head, n.epoch⟩, s', ?_⟩
  refine ⟨by simp [Replica.receive, response, SwmrNode.currentCursor, hs], hmirrors.snapshot,
    hepoch ▸ hmirrors.isPublished, hfirst, by simp only; omega, by simp only; omega, ?_⟩
  simp only [Replica.receive, response, List.map_append, hold', hslice, hlast]
  exact window_append (by omega) (by omega) le_rfl

theorem nextCursor_eq {swmrId streamId : String} {cursor : Option SwmrCursor}
    {timeoutMs : Option Int} {a : SwmrReadResponse}
    (ha : n.resolve swmrId streamId cursor timeoutMs = some a)
    (hstate : a.state = .data ∨ a.state = .reset) : a.nextCursor = n.currentCursor := by
  have hidle : ∀ next, n.caughtUp swmrId streamId next timeoutMs ≠ some a := by
    intro next hcaught
    obtain ⟨hdata, hreset⟩ := caughtUp_state hcaught
    exact hstate.elim hdata hreset
  unfold SwmrNode.resolve at ha
  split at ha
  · exact Option.some.inj ha ▸ rfl
  split at ha
  · exact Option.some.inj ha ▸ rfl
  split at ha
  · exact absurd ha (hidle _)
  split at ha
  · exact Option.some.inj ha ▸ rfl
  split at ha
  · exact Option.some.inj ha ▸ rfl
  split at ha
  · exact absurd ha (hidle _)
  split at ha <;> exact Option.some.inj ha ▸ rfl

theorem resolve_currentCursor {swmrId streamId : String} {timeoutMs : Option Int}
    {a : SwmrReadResponse} (ha : n.resolve swmrId streamId n.currentCursor timeoutMs = some a) :
    a.state ≠ .data ∧ a.state ≠ .reset := by
  have hepoch : (n.currentCursor.any fun cursor => cursor.epoch < n.epoch) = false ∧
      (n.currentCursor.any fun cursor => cursor.epoch > n.epoch) = false := by
    cases hs : n.snapshot <;> simp [SwmrNode.currentCursor, hs]
  rw [SwmrNode.resolve, hepoch.1, hepoch.2] at ha
  simp only [Bool.false_eq_true, if_false] at ha
  split at ha
  · exact caughtUp_state ha
  rename_i s hs
  have hcurrent : n.currentCursor = some ⟨n.head, n.epoch⟩ := by simp [SwmrNode.currentCursor, hs]
  rw [hcurrent] at ha
  simp only [if_true] at ha
  have hretained : ¬ n.head < s.seq := by
    simp only [SwmrNode.head, hs]
    omega
  rw [if_neg hretained] at ha
  exact caughtUp_state ha

end Responses

/-! ## Runs -/

theorem responsesTo_eq_told (streamId : String) (out : List SwmrOutput) :
    responsesTo streamId out = Desk.told streamId (out.map reply) := by
  rw [responsesTo, Desk.told, List.filterMap_map, List.filterMap_filterMap]
  congr 1
  funext o
  cases o <;> rfl

theorem replica_concat (stopWhen : StopWhen) (maxDeltas : Option Nat) (streamId : String)
    (front : List SwmrInput) (input : SwmrInput) :
    replica stopWhen maxDeltas streamId (front ++ [input]) =
      (responsesTo streamId ((run stopWhen maxDeltas front).handle input).2).foldl
        Replica.receive (replica stopWhen maxDeltas streamId front) := by
  rw [replica, outputs_append, List.flatten_append, responsesTo, List.filterMap_append,
    List.foldl_append]
  simp only [outputs, List.flatten_cons, List.flatten_nil, List.append_nil]
  rfl

structure Tracks (published : List Published) (streamId : String) (r : Replica) (n : SwmrNode) :
    Prop where
  faithful : Faithful published r
  held : ∀ read, n.readers.heldOf streamId = some read → read.request.cursor = r.cursor

theorem Tracks.handle {published : List Published} {streamId : String} {r : Replica}
    {n : SwmrNode} (h : Tracks published streamId r n) (hrecorded : Recorded published n)
    (hwf : n.readers.Wf) (hsound : n.readers.desk.Sound)
    (hsettled : n.readers.desk.Settled n.policy) {input : SwmrInput}
    (hthreads : ∀ request, input = .read streamId request → request.cursor = r.cursor) :
    Tracks (published ++ (publishedBy input (n.handle input)).toList) streamId
      ((responsesTo streamId (n.handle input).2).foldl Replica.receive r)
      (n.handle input).1 := by
  have hrecorded' := hrecorded.handle hsettled input
  have hfaithful := h.faithful.mono (publishedBy input (n.handle input)).toList
  have hcursor : ∀ k, n.readers.desk.kept streamId = some k → k.request.cursor = r.cursor := by
    intro k hk
    obtain ⟨read, hread, heq⟩ := Streams.held_of_kept hk
    rw [← heq]
    exact h.held read hread
  have hasked : ∀ request, input.ask = .read streamId request → request.cursor = r.cursor := by
    intro request hask
    cases input with
    | read id request' =>
        simp only [SwmrInput.ask, Ask.read.injEq] at hask
        obtain ⟨rfl, rfl⟩ := hask
        exact hthreads _ rfl
    | _ => simp [SwmrInput.ask] at hask
  rw [responsesTo_eq_told]
  cases (SwmrNode.handle_turn hwf hsound hsettled input).outcome hsound streamId with
  | told a hheard htold hkept =>
      rw [htold, List.foldl_cons, List.foldl_nil]
      refine ⟨?_, fun read hread => ?_⟩
      · have hanswer : ∃ swmrId timeoutMs,
            (n.handle input).1.resolve swmrId streamId r.cursor timeoutMs = some a := by
          generalize input.ask = ask at hheard hasked
          cases hheard with
          | read request ha =>
              refine ⟨request.swmrId, request.timeoutMs, ?_⟩
              rw [← hasked request rfl]
              exact ha
          | wake k hk ha =>
              refine ⟨k.request.swmrId, k.request.timeoutMs, ?_⟩
              rw [← hcursor k hk]
              exact ha
          | expire k hk t ha =>
              refine ⟨k.request.swmrId, some 0, ?_⟩
              rw [← hcursor k hk]
              exact ha
        obtain ⟨swmrId, timeoutMs, ha⟩ := hanswer
        exact receive_faithful hrecorded' hfaithful ha
      · simp [Streams.desk, hread] at hkept
  | untold htold hkept =>
      rw [htold, List.foldl_nil]
      refine ⟨hfaithful, fun read hread => ?_⟩
      have hread' : (n.handle input).1.readers.desk.kept streamId = some read.kept := by
        simp [Streams.desk, hread]
      rcases hkept read.kept hread' with hold | hnew
      · exact hcursor read.kept hold
      · exact hasked read.request hnew

theorem run_tracks (stopWhen : StopWhen) (maxDeltas : Option Nat) (streamId : String)
    {inputs : List SwmrInput} (hthreads : Threads stopWhen maxDeltas streamId inputs) :
    Tracks (published stopWhen maxDeltas inputs) streamId
      (replica stopWhen maxDeltas streamId inputs) (run stopWhen maxDeltas inputs) := by
  induction inputs using List.reverseRecOn with
  | nil =>
      refine ⟨.inl rfl, fun read hread => ?_⟩
      simp [run, SwmrNode.new, Streams.new, Streams.heldOf] at hread
  | append_singleton front input ih =>
      have hstands := run_stands stopWhen maxDeltas front
      rw [published_concat, replica_concat, run_concat]
      refine (ih ?_).handle (run_recorded stopWhen maxDeltas front) hstands.inv hstands.sound
        hstands.settled ?_
      · exact fun front' request hfront => hthreads front' request
          (hfront.trans (List.prefix_append front [input]))
      · rintro request rfl
        exact hthreads front request List.prefix_rfl

/-- Every response of a step is what the store says then to the request of its stream. -/
theorem response_of_handle {n : SwmrNode} (hwf : n.readers.Wf) (hsound : n.readers.desk.Sound)
    (hsettled : n.readers.desk.Settled n.policy) {input : SwmrInput} {a : SwmrReadResponse}
    (ha : .readResponse a ∈ (n.handle input).2) :
    ∃ request timeoutMs,
      (∀ id asked, input.ask = .read id asked → id = a.streamId ∧ request = asked) ∧
      (n.handle input).1.resolve request.swmrId a.streamId request.cursor timeoutMs = some a := by
  have htold : a ∈ Desk.told a.streamId ((n.handle input).2.map reply) := by
    rw [← responsesTo_eq_told]
    exact List.mem_filterMap.mpr ⟨_, ha, if_pos rfl⟩
  cases (SwmrNode.handle_turn hwf hsound hsettled input).outcome hsound a.streamId with
  | untold hnone hkept =>
      rw [hnone] at htold
      simp at htold
  | told b hheard hsome hkept =>
      rw [hsome, List.mem_singleton] at htold
      rw [← htold] at hheard
      generalize input.ask = ask at hheard ⊢
      cases hheard with
      | read request h =>
          refine ⟨request, request.timeoutMs, fun id asked hasked => ?_, h⟩
          obtain ⟨hid, hrequest⟩ := Ask.read.inj hasked
          exact ⟨hid.symm, hrequest⟩
      | wake k hk h => exact ⟨k.request, k.request.timeoutMs, by simp, h⟩
      | expire k hk t h => exact ⟨k.request, some 0, by simp, h⟩

theorem Mirrors.between {published : List Published} {r : Replica} {c : SwmrCursor}
    {s : SwmrSnapshot} (h : Mirrors published r c s)
    (hnumbered : Numbered Prod.fst (deltasOf published c.epoch)) :
    r.deltas.map SwmrDelta.item = (deltasOf published c.epoch).filter
        (fun d => decide (s.seq < d.1) && decide (d.1 ≤ c.seq)) ∧
      r.deltas.map SwmrDelta.seq = (List.range (c.seq - s.seq).toNat).map
        fun i : Nat => s.seq + 1 + i := by
  have hfirst := h.first
  have horder := h.order
  have hknown := h.known
  have hs : ((s.seq.toNat : Nat) : Int) = s.seq := Int.toNat_of_nonneg hfirst
  have hc : ((c.seq.toNat : Nat) : Int) = c.seq := Int.toNat_of_nonneg (by omega)
  constructor
  · have hfilter := hnumbered.filter_eq_window s.seq.toNat c.seq.toNat
    rw [hs, hc] at hfilter
    rw [h.deltas, hfilter]
  · have hmap := hnumbered.map_window s.seq.toNat
      (show c.seq.toNat ≤ (deltasOf published c.epoch).length by omega)
    have hseq : r.deltas.map SwmrDelta.seq = (r.deltas.map SwmrDelta.item).map Prod.fst := by
      rw [List.map_map]
      rfl
    rw [hseq, h.deltas, hmap, hs]
    congr 2
    omega

/-- **Replicas.**  Whatever happens, the copy of a reader that threads its cursors is empty
or a snapshot published in the epoch of its cursor with exactly the deltas published in
that epoch after it, up to the cursor; and after data or a reset an immediate read at the
cursor that came with it is told neither. -/
theorem replica_reconstructs (stopWhen : StopWhen) (maxDeltas : Option Nat) (streamId : String)
    (inputs : List SwmrInput) (hthreads : Threads stopWhen maxDeltas streamId inputs) :
    let r := replica stopWhen maxDeltas streamId inputs
    let history := published stopWhen maxDeltas inputs
    (r = Replica.fresh ∨ ∃ c s, r.cursor = some c ∧ r.snapshot = some s ∧
        .snapshot c.epoch s.seq s.payload ∈ history ∧ s.seq ≤ c.seq ∧
        r.deltas.map SwmrDelta.item = (deltasOf history c.epoch).filter
          (fun d => decide (s.seq < d.1) && decide (d.1 ≤ c.seq)) ∧
        r.deltas.map SwmrDelta.seq = (List.range (c.seq - s.seq).toNat).map
          fun i : Nat => s.seq + 1 + i) ∧
      ∀ front input a, front ++ [input] <+: inputs →
        .readResponse a ∈ ((run stopWhen maxDeltas front).handle input).2 →
        a.state = .data ∨ a.state = .reset →
        ∀ id swmrId timeoutMs b,
          .readResponse b ∈ ((run stopWhen maxDeltas (front ++ [input])).handle
            (.read id ⟨swmrId, a.nextCursor, timeoutMs⟩)).2 →
          b.state ≠ .data ∧ b.state ≠ .reset := by
  intro r history
  constructor
  · rcases (run_tracks stopWhen maxDeltas streamId hthreads).faithful with hfresh | hmirrors
    · exact .inl hfresh
    · obtain ⟨c, s, hmirrors⟩ := hmirrors
      obtain ⟨hbetween, hseqs⟩ := hmirrors.between
        ((run_recorded stopWhen maxDeltas inputs).numbered c.epoch)
      exact .inr ⟨c, s, hmirrors.cursor, hmirrors.snapshot, hmirrors.isPublished, hmirrors.order,
        hbetween, hseqs⟩
  · intro front input a _ ha hstate id swmrId timeoutMs b hb
    have hstands := run_stands stopWhen maxDeltas front
    have hstands' := run_stands stopWhen maxDeltas (front ++ [input])
    obtain ⟨request, timeoutMs', -, hresolve⟩ :=
      response_of_handle hstands.inv hstands.sound hstands.settled ha
    rw [← run_concat] at hresolve
    have hnext := nextCursor_eq hresolve hstate
    obtain ⟨request', timeoutMs'', hsame, hresolve'⟩ :=
      response_of_handle hstands'.inv hstands'.sound hstands'.settled hb
    obtain ⟨-, rfl⟩ := hsame id ⟨swmrId, a.nextCursor, timeoutMs⟩ rfl
    rw [hnext] at hresolve'
    exact resolve_currentCursor hresolve'

theorem Threads.concat {stopWhen : StopWhen} {maxDeltas : Option Nat} {streamId : String}
    {front : List SwmrInput} (h : Threads stopWhen maxDeltas streamId front) (input : SwmrInput)
    (hlast : ∀ request, input = .read streamId request →
      request.cursor = (replica stopWhen maxDeltas streamId front).cursor) :
    Threads stopWhen maxDeltas streamId (front ++ [input]) := by
  intro front' request hfirst
  rcases List.prefix_concat_iff.mp hfirst with heq | hfront
  · obtain ⟨rfl, hinput⟩ := List.append_inj' heq rfl
    exact hlast request (List.singleton_inj.mp hinput).symm
  · exact h front' request hfront

/-- A reader that got a snapshot is told the delta after it, and has both. -/
theorem replica_reconstructs_delta :
    let inputs : List SwmrInput := [.snapshotPush "w" [1], .read "s" ⟨"a", none, none⟩,
      .deltaPush "w" [2], .read "s" ⟨"a", some ⟨0, 0⟩, none⟩]
    let r := replica .lastReader none "s" inputs
    let history := published .lastReader none inputs
    r = ⟨some ⟨1, 0⟩, some ⟨0, [1]⟩, [⟨0, 1, [2]⟩]⟩ ∧
      (r = Replica.fresh ∨ ∃ c s, r.cursor = some c ∧ r.snapshot = some s ∧
        .snapshot c.epoch s.seq s.payload ∈ history ∧ s.seq ≤ c.seq ∧
        r.deltas.map SwmrDelta.item = (deltasOf history c.epoch).filter
          (fun d => decide (s.seq < d.1) && decide (d.1 ≤ c.seq)) ∧
        r.deltas.map SwmrDelta.seq = (List.range (c.seq - s.seq).toNat).map
          fun i : Nat => s.seq + 1 + i) := by
  intro inputs r history
  have hnil : Threads .lastReader none "s" [] := fun front request hfirst => by
    simp at hfirst
  have hpush := hnil.concat (.snapshotPush "w" [1]) (by simp)
  have hread := hpush.concat (.read "s" ⟨"a", none, none⟩) fun request heq => by
    obtain rfl := (SwmrInput.read.inj heq).2
    decide
  have hdelta := hread.concat (.deltaPush "w" [2]) (by simp)
  have hthreads := hdelta.concat (.read "s" ⟨"a", some ⟨0, 0⟩, none⟩) fun request heq => by
    obtain rfl := (SwmrInput.read.inj heq).2
    decide
  exact ⟨by decide, (replica_reconstructs .lastReader none "s" inputs hthreads).1⟩

end TautShape.Swmr
