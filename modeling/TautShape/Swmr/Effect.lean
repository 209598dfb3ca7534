import TautShape.Swmr.Node
import TautShape.Held.Refine
/-!
# What one input does

`handle_spec` says once what an input can do: a refused write leaves the store alone, an
accepted one is followed by a sweep, and the readers' inputs do not touch the store.  The
sweep of a reset turns out to be the ordinary sweep, since every held cursor is of the
epoch that just ended.
-/

namespace TautShape.Swmr

open TautShape.Lib TautShape.Held
open TautShape.Log (Bytes StopWhen)

def SwmrInput.ask : SwmrInput → Ask String Request
  | .read streamId request => .read streamId request
  | .endStream streamId => .leave streamId
  | .timerExpired token => .expire token.toNat
  | _ => .wake

def reply : SwmrOutput → Reply String SwmrReadResponse := Output.reply SwmrReadResponse.streamId

namespace SwmrNode

variable {n : SwmrNode}

/-- Held reads answered in a store, whatever the readers were before. -/
def policy (n : SwmrNode) : Policy String Request SwmrReadResponse :=
  Held.policy n.answer n.probe Request.timeoutMs

/-! ## Responses -/

theorem caughtUp_probe (n : SwmrNode) (swmrId streamId : String) (next : Option SwmrCursor) :
    (n.caughtUp swmrId streamId next (some 0)).isSome = true := by
  unfold caughtUp
  split
  · split <;> rfl
  · split <;> rfl

/-- A probe is never held, which the source unwraps. -/
theorem resolve_probe (n : SwmrNode) (swmrId streamId : String) (cursor : Option SwmrCursor) :
    (n.resolve swmrId streamId cursor (some 0)).isSome = true := by
  unfold resolve
  split
  · rfl
  split
  · rfl
  split
  · exact n.caughtUp_probe ..
  split
  · rfl
  split
  · rfl
  split
  · exact n.caughtUp_probe ..
  split <;> rfl

theorem caughtUp_streamId {swmrId streamId : String} {next : Option SwmrCursor}
    {timeoutMs : Option Int} {r : SwmrReadResponse}
    (h : n.caughtUp swmrId streamId next timeoutMs = some r) : r.streamId = streamId := by
  unfold caughtUp at h
  split at h
  · split at h <;> exact Option.some.inj h ▸ rfl
  · split at h
    · exact Option.some.inj h ▸ rfl
    · split at h
      · exact Option.some.inj h ▸ rfl
      · simp at h

theorem resolve_streamId {swmrId streamId : String} {cursor : Option SwmrCursor}
    {timeoutMs : Option Int} {r : SwmrReadResponse}
    (h : n.resolve swmrId streamId cursor timeoutMs = some r) : r.streamId = streamId := by
  unfold resolve at h
  split at h
  · exact Option.some.inj h ▸ rfl
  split at h
  · exact Option.some.inj h ▸ rfl
  split at h
  · exact caughtUp_streamId h
  split at h
  · exact Option.some.inj h ▸ rfl
  split at h
  · exact Option.some.inj h ▸ rfl
  split at h
  · exact caughtUp_streamId h
  split at h <;> exact Option.some.inj h ▸ rfl

theorem cursor_of_held {swmrId streamId : String} {cursor : SwmrCursor} {timeoutMs : Option Int}
    (h : n.resolve swmrId streamId (some cursor) timeoutMs = none) :
    cursor.epoch = n.epoch ∧ (n.snapshot.isSome = true → cursor.seq = n.head) := by
  unfold resolve at h
  split at h
  · simp at h
  rename_i hold
  split at h
  · simp at h
  rename_i hnew
  simp only [Option.any_some, decide_eq_true_eq, not_lt, gt_iff_lt] at hold hnew
  refine ⟨by omega, ?_⟩
  split at h
  · rename_i hnone
    simp [hnone]
  simp only at h
  split at h
  · simp at h
  split at h
  · rename_i heq
    exact fun _ => heq
  split at h <;> simp at h

/-! ## The sweep of a reset -/

def Outdated (n : SwmrNode) : Prop :=
  ∀ id held cursor, n.readers.heldOf id = some held → held.request.cursor = some cursor →
    cursor.epoch < n.epoch

theorem outdated_setHeld (h : n.Outdated) (id : String) :
    { n with readers := n.readers.setHeld id none }.Outdated := by
  intro a held cursor hheld hcursor
  rw [Streams.heldOf_setHeld] at hheld
  split at hheld
  · simp at hheld
  · exact h a held cursor hheld hcursor

/-- After a reset a reader that has a cursor is told what `resolve` would tell it. -/
theorem resetHeld_eq (hsnapshot : n.snapshot = none) {reason : SwmrResetReason}
    (hreason : n.resetReason = some reason) (hold : n.Outdated) (id : String) :
    resetHeld reason n id =
      ({ n with readers := (Streams.answerHeld (δ := SwmrDiagnostic) n.answer n.readers id).1 },
        (Streams.answerHeld n.answer n.readers id).2) := by
  unfold resetHeld Streams.answerHeld
  cases hheld : n.readers.heldOf id with
  | none => rfl
  | some held =>
      cases hcursor : held.request.cursor with
      | none =>
          simp only [answer, hcursor]
          cases n.resolve held.request.swmrId id none held.request.timeoutMs <;> rfl
      | some cursor =>
          have hlt := hold id held cursor hheld hcursor
          have hresolve : n.answer id held.request = some (response held.request.swmrId id none []
              none .reset (some reason) none n.resetDetail) := by
            rw [answer, hcursor, resolve, if_pos (by simpa using hlt)]
            simp [resetResponse, hsnapshot, hreason, currentCursor]
          simp only [hresolve, hcursor]

theorem resetHeld_sweep (hsnapshot : n.snapshot = none) {reason : SwmrResetReason}
    (hreason : n.resetReason = some reason) (hold : n.Outdated) (ids : List String) :
    after (resetHeld reason) n ids =
        { n with
          readers := (after (Streams.answerHeld (δ := SwmrDiagnostic) n.answer) n.readers ids) } ∧
      outputs (resetHeld reason) n ids = outputs (Streams.answerHeld n.answer) n.readers ids := by
  induction ids generalizing n with
  | nil => exact ⟨rfl, rfl⟩
  | cons id rest ih =>
      have hone := resetHeld_eq hsnapshot hreason hold id
      have hold' : (resetHeld reason n id).1.Outdated := by
        rw [hone]
        unfold Streams.answerHeld
        split
        · exact hold
        · split
          · exact hold
          · exact outdated_setHeld hold id
      rw [hone] at hold'
      obtain ⟨hafter, houtputs⟩ := ih (n := { n with
        readers := (Streams.answerHeld (δ := SwmrDiagnostic) n.answer n.readers id).1 })
        hsnapshot hreason hold'
      rw [after_cons, outputs, outputs, hone]
      exact ⟨hafter, by rw [houtputs]; rfl⟩

/-! ## One input -/

def wiped (n : SwmrNode) (detail : Option Bytes) : SwmrNode :=
  { n with
    epoch := n.epoch + 1
    snapshot := none
    deltas := []
    resetReason := some .producerRequested
    resetDetail := detail }

def MayWrite (n : SwmrNode) (writerId : String) : Prop :=
  n.terminal = false ∧ (n.writerId = none ∨ n.writerId = some writerId)

inductive Handled (n : SwmrNode) : SwmrInput → SwmrNode × List SwmrOutput → Prop
  /-- A refused write may bind the writer, and does nothing else. -/
  | refused {input : SwmrInput} (writerId : Option String) (code : SwmrDiagCode)
      (hask : input.ask = .wake)
      (hwriter : writerId = n.writerId ∨ (n.terminal = false ∧ n.writerId = none ∧
        ∃ w payload, input = .deltaPush w payload ∧ writerId = some w)) :
      Handled n input ({ n with writerId := writerId }, diagnostic code)
  | snapshotPush (w : String) (payload : Bytes) (hwrite : n.MayWrite w) :
      Handled n (.snapshotPush w payload)
        { n with writerId := some w, snapshot := some ⟨n.head, payload⟩, deltas := []
          : SwmrNode }.answerAllHeld
  | deltaPush (w : String) (payload : Bytes) (hwrite : n.MayWrite w)
      (snapshot : SwmrSnapshot) (hsnapshot : n.snapshot = some snapshot)
      (hroom : ∀ limit, n.maxDeltas = some limit → n.deltas.length < limit) :
      Handled n (.deltaPush w payload)
        { n with writerId := some w, deltas := n.deltas ++ [⟨n.head + 1 - 1, n.head + 1, payload⟩]
          : SwmrNode }.answerAllHeld
  | reset (w : String) (reason : SwmrResetReason) (detail : Option Bytes)
      (hwrite : n.MayWrite w) :
      Handled n (.reset w reason detail)
        (after (resetHeld .producerRequested) (wiped { n with writerId := some w } detail)
            n.readers.order,
          (outputs (resetHeld .producerRequested) (wiped { n with writerId := some w } detail)
            n.readers.order).flatten)
  /-- A second seal or close. -/
  | again {input : SwmrInput} (hinput : input = .seal ∨ ∃ error, input = .close error)
      (hterminal : n.terminal = true) : Handled n input (n, [])
  | «seal» (hopen : n.isSealed = false) :
      Handled n .seal { n with isSealed := true : SwmrNode }.answerAllHeld
  | close (error : Option SwmrError) (hopen : n.isClosed = false) :
      Handled n (.close error)
        ({ n with isClosed := true, closeError := error : SwmrNode }.answerAllHeld.1,
          { n with isClosed := true, closeError := error : SwmrNode }.answerAllHeld.2 ++
            [.producerStop (if error.isSome then .failed else .closed)])
  | read (streamId : String) (request : Request) :
      Handled n (.read streamId request) (n.read streamId request)
  | endStream (streamId : String) : Handled n (.endStream streamId) (n.endStream streamId)
  | timerExpired (token : Int) : Handled n (.timerExpired token) (n.timerExpired token)

theorem checkWriter_cases (n : SwmrNode) (w : String) :
    ((n.writerId = none ∨ n.writerId = some w) ∧
        n.checkWriter w = ({ n with writerId := some w }, true)) ∨
      n.checkWriter w = (n, false) := by
  unfold checkWriter
  cases hbound : n.writerId with
  | none => exact .inl ⟨.inl rfl, rfl⟩
  | some bound =>
      by_cases heq : bound = w
      · subst heq
        refine .inl ⟨.inr rfl, ?_⟩
        simp [← hbound]
      · exact .inr (by simp [heq])

theorem checkWriter_of_mayWrite {w : String} (h : n.MayWrite w) :
    n.checkWriter w = ({ n with writerId := some w }, true) := by
  unfold checkWriter
  rcases h.2 with hnone | hsome
  · rw [hnone]
  · rw [hsome]
    simp only [decide_true]
    rw [← hsome]

theorem handle_spec (n : SwmrNode) (input : SwmrInput) : Handled n input (n.handle input) := by
  have hsame : ∀ {input : SwmrInput} (code : SwmrDiagCode), input.ask = .wake →
      Handled n input (n, diagnostic code) :=
    fun code hask => .refused n.writerId code hask (.inl rfl)
  cases input with
  | snapshotPush w payload =>
      rw [handle, snapshotPush]
      split
      · exact hsame _ rfl
      · rename_i hlive
        rcases n.checkWriter_cases w with ⟨hbound, hcheck⟩ | hcheck
        · rw [hcheck]
          exact .snapshotPush w payload ⟨by simpa using hlive, hbound⟩
        · rw [hcheck]
          exact hsame _ rfl
  | deltaPush w payload =>
      rw [handle, deltaPush]
      split
      · exact hsame _ rfl
      · rename_i hlive
        have hlive' : n.terminal = false := by simpa using hlive
        rcases n.checkWriter_cases w with ⟨hbound, hcheck⟩ | hcheck
        · have hrefused : ∀ code, Handled n (.deltaPush w payload)
              ({ n with writerId := some w }, diagnostic code) := by
            intro code
            refine .refused (some w) code rfl ?_
            rcases hbound with hnone | hsome
            · exact .inr ⟨hlive', hnone, w, payload, rfl, rfl⟩
            · exact .inl hsome.symm
          rw [hcheck]
          simp only [Bool.not_true, Bool.false_eq_true, if_false]
          split
          · exact hrefused _
          · rename_i hsome
            obtain ⟨snapshot, hsnapshot⟩ := Option.isSome_iff_exists.mp
              (by simpa [Option.isNone_iff_eq_none, Option.isSome_iff_ne_none] using hsome)
            split
            · exact hrefused _
            · rename_i hroom
              refine .deltaPush w payload ⟨hlive', hbound⟩ snapshot hsnapshot ?_
              intro limit hlimit
              simpa [hlimit] using hroom
        · rw [hcheck]
          exact hsame _ rfl
  | reset w reason detail =>
      rw [handle, reset]
      split
      · exact hsame _ rfl
      · rename_i hlive
        rcases n.checkWriter_cases w with ⟨hbound, hcheck⟩ | hcheck
        · rw [hcheck]
          exact .reset w reason detail ⟨by simpa using hlive, hbound⟩
        · rw [hcheck]
          exact hsame _ rfl
  | «seal» =>
      rw [handle, SwmrNode.seal]
      split
      · rename_i hsealed
        exact .again (.inl rfl) (by simp [terminal, hsealed])
      · rename_i hopen
        exact .seal (by simpa using hopen)
  | close error =>
      rw [handle, SwmrNode.close]
      split
      · rename_i hclosed
        exact .again (.inr ⟨error, rfl⟩) (by simp [terminal, hclosed])
      · rename_i hopen
        exact .close error (by simpa using hopen)
  | read streamId request => exact .read streamId request
  | endStream streamId => exact .endStream streamId
  | timerExpired token => exact .timerExpired token

end SwmrNode

end TautShape.Swmr
