import TautShape.Swmr.Store
import TautShape.Held.Checked
/-!
# Where the engine could panic

The engine with its cast, its slice and its `expect` made explicit.  A cursor is whatever a
client sends.  The slice is taken only for a cursor between the snapshot and the head, and
the head is as far from the snapshot as there are deltas.
-/

namespace TautShape.Swmr

open TautShape.Lib TautShape.Held
open TautShape.Log (Bytes StopWhen)

inductive Panic where
  | negativeCast
  | sliceOutOfRange
  | expect (message : String)
deriving DecidableEq, Repr

/-- `offset as usize`, which a number below zero does not survive. -/
def castUsize (offset : Int) : Except Panic Nat :=
  if 0 ≤ offset then .ok offset.toNat else .error .negativeCast

/-- `deltas[offset..]` -/
def sliceFrom (deltas : List SwmrDelta) (offset : Nat) : Except Panic (List SwmrDelta) :=
  if offset ≤ deltas.length then .ok (deltas.drop offset) else .error .sliceOutOfRange

namespace SwmrNode

def resolveChecked (n : SwmrNode) (swmrId streamId : String) (cursor : Option SwmrCursor)
    (timeoutMs : Option Int) : Except Panic (Option SwmrReadResponse) :=
  if cursor.any fun cursor => cursor.epoch < n.epoch then
    return some (n.resetResponse swmrId streamId (n.resetReason.getD .producerRequested)
      n.resetDetail)
  else if cursor.any fun cursor => cursor.epoch > n.epoch then
    return some (n.resetResponse swmrId streamId .invalidResumeSeq none)
  else
    match n.snapshot with
    | none => return n.caughtUp swmrId streamId none timeoutMs
    | some snapshot =>
        match cursor with
        | none =>
            return some (response swmrId streamId (some snapshot) n.deltas n.currentCursor .data
              none none none)
        | some cursor =>
            if cursor.seq < snapshot.seq then
              return some (n.resetResponse swmrId streamId .retentionExceeded none)
            else if cursor.seq = n.head then
              return n.caughtUp swmrId streamId (some ⟨n.head, n.epoch⟩) timeoutMs
            else if cursor.seq > n.head then
              return some (n.resetResponse swmrId streamId .invalidResumeSeq none)
            else do
              let offset ← castUsize (cursor.seq - snapshot.seq)
              let deltas ← sliceFrom n.deltas offset
              return some (response swmrId streamId none deltas n.currentCursor .data none none
                none)

def answerChecked (n : SwmrNode) (streamId : String) (request : Request) :
    Except Panic (Option SwmrReadResponse) :=
  n.resolveChecked request.swmrId streamId request.cursor request.timeoutMs

def probeChecked (n : SwmrNode) (streamId : String) (request : Request) :
    Except Panic SwmrReadResponse := do
  match ← n.resolveChecked request.swmrId streamId request.cursor (some 0) with
  | some response => return response
  | none => .error (.expect "swmr probe unexpectedly held")

def answerAllHeldChecked (n : SwmrNode) : Except Panic (SwmrNode × List SwmrOutput) := do
  let (readers, out) ← n.readers.answerAllHeldChecked n.answerChecked
  return ({ n with readers := readers }, out)

def snapshotPushChecked (n : SwmrNode) (writerId : String) (payload : Bytes) :
    Except Panic (SwmrNode × List SwmrOutput) :=
  if n.terminal then return (n, diagnostic .pushAfterTerminal)
  else
    let (n, isWriter) := n.checkWriter writerId
    if !isWriter then return (n, diagnostic .writerConflict)
    else { n with snapshot := some ⟨n.head, payload⟩, deltas := [] : SwmrNode }.answerAllHeldChecked

def deltaPushChecked (n : SwmrNode) (writerId : String) (payload : Bytes) :
    Except Panic (SwmrNode × List SwmrOutput) :=
  if n.terminal then return (n, diagnostic .pushAfterTerminal)
  else
    let (n, isWriter) := n.checkWriter writerId
    if !isWriter then return (n, diagnostic .writerConflict)
    else if n.snapshot.isNone then return (n, diagnostic .deltaBeforeSnapshot)
    else if n.maxDeltas.any fun limit => n.deltas.length ≥ limit then
      return (n, diagnostic .retentionBoundExceeded)
    else
      let seq := n.head + 1
      { n with deltas := n.deltas ++ [⟨seq - 1, seq, payload⟩] : SwmrNode }.answerAllHeldChecked

def resetHeldChecked (reason : SwmrResetReason) (n : SwmrNode) (streamId : String) :
    Except Panic (SwmrNode × List SwmrOutput) :=
  match n.readers.heldOf streamId with
  | none => return (n, [])
  | some held =>
      let cleared := { n with readers := n.readers.setHeld streamId none }
      match held.request.cursor with
      | none => do
          match ← n.resolveChecked held.request.swmrId streamId none held.request.timeoutMs with
          | some response =>
              return (cleared, cancelTimer held.timerToken ++ [.readResponse response])
          | none => return (n, [])
      | some _ =>
          return (cleared, cancelTimer held.timerToken ++
            [.readResponse (response held.request.swmrId streamId none [] none .reset (some reason)
              none n.resetDetail)])

def resetChecked (n : SwmrNode) (writerId : String) (detail : Option Bytes) :
    Except Panic (SwmrNode × List SwmrOutput) :=
  if n.terminal then return (n, diagnostic .pushAfterTerminal)
  else
    let (n, isWriter) := n.checkWriter writerId
    if !isWriter then return (n, diagnostic .writerConflict)
    else do
      let reason := SwmrResetReason.producerRequested
      let n := { n with
        epoch := n.epoch + 1
        snapshot := none
        deltas := []
        resetReason := some reason
        resetDetail := detail }
      let (n, out) ← runChecked (resetHeldChecked reason) n n.readers.order
      return (n, out.flatten)

def sealChecked (n : SwmrNode) : Except Panic (SwmrNode × List SwmrOutput) :=
  if n.isSealed then return (n, [])
  else { n with isSealed := true : SwmrNode }.answerAllHeldChecked

def closeChecked (n : SwmrNode) (error : Option SwmrError) :
    Except Panic (SwmrNode × List SwmrOutput) :=
  if n.isClosed then return (n, [])
  else do
    let (n, out) ←
      { n with isClosed := true, closeError := error : SwmrNode }.answerAllHeldChecked
    return (n, out ++ [.producerStop (if n.closeError.isSome then .failed else .closed)])

def readChecked (n : SwmrNode) (streamId : String) (request : Request) :
    Except Panic (SwmrNode × List SwmrOutput) := do
  let (readers, out) ← n.readers.readChecked n.answerChecked Request.timeoutMs streamId request
  return ({ n with readers := readers }, out)

def timerExpiredChecked (n : SwmrNode) (token : Int) :
    Except Panic (SwmrNode × List SwmrOutput) := do
  let (readers, out) ← n.readers.timerExpiredChecked n.probeChecked token
  return ({ n with readers := readers }, out)

def handleChecked (n : SwmrNode) : SwmrInput → Except Panic (SwmrNode × List SwmrOutput)
  | .snapshotPush writerId payload => n.snapshotPushChecked writerId payload
  | .deltaPush writerId payload => n.deltaPushChecked writerId payload
  | .reset writerId _ detail => n.resetChecked writerId detail
  | .seal => n.sealChecked
  | .close error => n.closeChecked error
  | .read streamId request => n.readChecked streamId request
  | .endStream streamId => return n.endStream streamId
  | .timerExpired token => n.timerExpiredChecked token

/-! ## Reads -/

theorem offset_in_range {n : SwmrNode} {snapshot : SwmrSnapshot}
    (hsnapshot : n.snapshot = some snapshot) {seq : Int} (hretained : snapshot.seq ≤ seq)
    (hbehind : seq ≤ n.head) : castUsize (seq - snapshot.seq) = .ok (seq - snapshot.seq).toNat ∧
      sliceFrom n.deltas (seq - snapshot.seq).toNat =
        .ok (n.deltas.drop (seq - snapshot.seq).toNat) := by
  have hhead := head_of_snapshot hsnapshot
  constructor
  · apply if_pos
    omega
  · apply if_pos
    omega

theorem resolveChecked_eq (n : SwmrNode) (swmrId streamId : String) (cursor : Option SwmrCursor)
    (timeoutMs : Option Int) :
    n.resolveChecked swmrId streamId cursor timeoutMs =
      .ok (n.resolve swmrId streamId cursor timeoutMs) := by
  unfold resolveChecked resolve
  split
  · rfl
  split
  · rfl
  cases hsnapshot : n.snapshot with
  | none => rfl
  | some snapshot =>
      cases cursor with
      | none => rfl
      | some cursor =>
          dsimp only
          split
          · rfl
          rename_i hretained
          split
          · rfl
          split
          · rfl
          rename_i hbehind
          obtain ⟨hcast, hslice⟩ :=
            offset_in_range hsnapshot (Int.not_lt.mp hretained) (Int.not_lt.mp hbehind)
          rw [hcast]
          change (sliceFrom n.deltas (cursor.seq - snapshot.seq).toNat >>= _) = _
          rw [hslice]
          rfl

theorem answerChecked_eq (n : SwmrNode) (id : String) (request : Request) :
    n.answerChecked id request = .ok (n.answer id request) :=
  n.resolveChecked_eq request.swmrId id request.cursor request.timeoutMs

theorem probeChecked_eq (n : SwmrNode) (id : String) (request : Request) :
    (n.probeChecked id request).map some = .ok (n.probe id request) := by
  have hsome := n.resolve_probe request.swmrId id request.cursor
  rw [probeChecked, probe, resolveChecked_eq]
  cases hr : n.resolve request.swmrId id request.cursor (some 0) with
  | none =>
      rw [hr] at hsome
      exact absurd hsome (by simp)
  | some r => rfl

theorem answerAllHeldChecked_eq (n : SwmrNode) :
    n.answerAllHeldChecked = .ok n.answerAllHeld := by
  have hsafe : Streams.Safe n.answerChecked n.answer n.readers :=
    fun id held _ => n.answerChecked_eq id held.request
  rw [answerAllHeldChecked, Streams.answerAllHeldChecked_eq hsafe]
  rfl

/-! ## One input -/

theorem resetHeldChecked_eq (reason : SwmrResetReason) (n : SwmrNode) (id : String) :
    resetHeldChecked reason n id = .ok (resetHeld reason n id) := by
  unfold resetHeldChecked resetHeld
  cases n.readers.heldOf id with
  | none => rfl
  | some held =>
      dsimp only
      cases held.request.cursor with
      | some cursor => rfl
      | none =>
          dsimp only
          rw [resolveChecked_eq]
          cases n.resolve held.request.swmrId id none held.request.timeoutMs with
          | none => rfl
          | some response => rfl

theorem snapshotPushChecked_eq (n : SwmrNode) (w : String) (payload : Bytes) :
    n.snapshotPushChecked w payload = .ok (n.snapshotPush w payload) := by
  unfold snapshotPushChecked snapshotPush
  split
  · rfl
  dsimp only
  split
  · rfl
  · exact answerAllHeldChecked_eq _

theorem deltaPushChecked_eq (n : SwmrNode) (w : String) (payload : Bytes) :
    n.deltaPushChecked w payload = .ok (n.deltaPush w payload) := by
  unfold deltaPushChecked deltaPush
  split
  · rfl
  dsimp only
  split
  · rfl
  split
  · rfl
  split
  · rfl
  · exact answerAllHeldChecked_eq _

theorem resetChecked_eq (n : SwmrNode) (w : String) (detail : Option Bytes) :
    n.resetChecked w detail = .ok (n.reset w detail) := by
  unfold resetChecked reset
  split
  · rfl
  dsimp only
  split
  · rfl
  · rw [runChecked_eq (P := fun _ => True) trivial (fun _ _ _ _ => trivial)
      (fun m id _ _ => resetHeldChecked_eq .producerRequested m id)]
    rfl

/-- No input makes the engine panic, in whatever state it is. -/
theorem handleChecked_eq (n : SwmrNode) (input : SwmrInput) :
    n.handleChecked input = .ok (n.handle input) := by
  cases input with
  | snapshotPush w payload => exact n.snapshotPushChecked_eq w payload
  | deltaPush w payload => exact n.deltaPushChecked_eq w payload
  | reset w reason detail => exact n.resetChecked_eq w detail
  | «seal» =>
      rw [handleChecked, sealChecked, handle, SwmrNode.seal]
      split
      · rfl
      · exact answerAllHeldChecked_eq _
  | close error =>
      rw [handleChecked, closeChecked, handle, SwmrNode.close]
      split
      · rfl
      · rw [answerAllHeldChecked_eq]
        rfl
  | read id request =>
      rw [handleChecked, readChecked, Streams.readChecked_eq (n.answerChecked_eq id request)]
      rfl
  | endStream id => rfl
  | timerExpired token =>
      rw [handleChecked, timerExpiredChecked,
        Streams.timerExpiredChecked_eq (fun id held _ => n.probeChecked_eq id held.request) token]
      rfl

end SwmrNode

/-- **The store.**  In every reachable state the deltas are numbered from the snapshot on,
each based on the one before, and no more than are allowed; positions never go back; all
accepted writes are of one writer; and no cursor makes a slice or a cast fail. -/
theorem store_invariant (stopWhen : StopWhen) (maxDeltas : Option Nat)
    (inputs : List SwmrInput) :
    ((run stopWhen maxDeltas inputs).snapshot = none →
        (run stopWhen maxDeltas inputs).deltas = []) ∧
      (∀ s, (run stopWhen maxDeltas inputs).snapshot = some s →
        ∀ (i : Nat) (d : SwmrDelta), (run stopWhen maxDeltas inputs).deltas[i]? = some d →
          d.seq = s.seq + i + 1 ∧ d.baseSeq = d.seq - 1) ∧
      (∀ limit, maxDeltas = some limit →
        (run stopWhen maxDeltas inputs).deltas.length ≤ limit) ∧
      (∀ front, front <+: inputs →
        (run stopWhen maxDeltas front).position ≤ (run stopWhen maxDeltas inputs).position) ∧
      (∀ front input w front' input' w', front ++ [input] <+: inputs →
        front' ++ [input'] <+: inputs → (run stopWhen maxDeltas front).Accepts input w →
          (run stopWhen maxDeltas front').Accepts input' w' → w = w') ∧
      (∀ swmrId streamId cursor timeoutMs,
        (run stopWhen maxDeltas inputs).resolveChecked swmrId streamId cursor timeoutMs =
          .ok ((run stopWhen maxDeltas inputs).resolve swmrId streamId cursor timeoutMs)) ∧
      ∀ input, (run stopWhen maxDeltas inputs).handleChecked input =
        .ok ((run stopWhen maxDeltas inputs).handle input) := by
  have hstored := run_stored stopWhen maxDeltas inputs
  have hmax := run_maxDeltas stopWhen maxDeltas inputs
  refine ⟨hstored.empty, hstored.chained, ?_, ?_, ?_, ?_, ?_⟩
  · intro limit hlimit
    exact hstored.bounded limit (hmax.trans hlimit)
  · rintro front ⟨back, rfl⟩
    exact run_position_le stopWhen maxDeltas front back
  · intro front input w front' input' w' hfront hfront' hw hw'
    obtain ⟨back, hback⟩ := hfront
    obtain ⟨back', hback'⟩ := hfront'
    have hbound := run_writerId hw back
    have hbound' := run_writerId hw' back'
    rw [hback] at hbound
    rw [hback', hbound, Option.some_inj] at hbound'
    exact hbound'
  · exact SwmrNode.resolveChecked_eq _
  · exact SwmrNode.handleChecked_eq _

end TautShape.Swmr
