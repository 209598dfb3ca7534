import TautShape.Swmr.Effect
/-!
# The held reads of the swmr engine

Every input is a turn of the desk, under what the store says after it.  So every run is
accounted for, and no read is held that could be answered.
-/

namespace TautShape.Swmr

open TautShape.Lib TautShape.Held
open TautShape.Log (Bytes StopWhen)

namespace SwmrNode

variable {n : SwmrNode}

theorem answer_of_settled (h : n.readers.desk.Settled n.policy) {id : String}
    {held : HeldRead Request} (hheld : n.readers.heldOf id = some held) :
    n.answer id held.request = none := by
  have hkept : n.readers.desk.kept id = some held.kept := by simp [Streams.desk, hheld]
  exact h id held.kept hkept

/-- A new epoch leaves every held cursor behind. -/
theorem wiped_outdated (h : n.readers.desk.Settled n.policy) (writerId : Option String)
    (detail : Option Bytes) : (wiped { n with writerId := writerId } detail).Outdated := by
  intro id held cursor hheld hcursor
  have hnone := answer_of_settled h hheld
  rw [answer, hcursor] at hnone
  have hepoch := (cursor_of_held hnone).1
  simp only [wiped]
  omega

theorem reset_sweep (h : n.readers.desk.Settled n.policy) (writerId : Option String)
    (detail : Option Bytes) :
    (after (resetHeld .producerRequested) (wiped { n with writerId := writerId } detail)
        n.readers.order,
      (outputs (resetHeld .producerRequested) (wiped { n with writerId := writerId } detail)
        n.readers.order).flatten) =
      (wiped { n with writerId := writerId } detail).answerAllHeld := by
  obtain ⟨hafter, houtputs⟩ := resetHeld_sweep (n := wiped { n with writerId := writerId } detail)
    rfl rfl (wiped_outdated h writerId detail) n.readers.order
  rw [hafter, houtputs]
  rfl

/-! ## Turns -/

theorem answer_name (n : SwmrNode) (id : String) (request : Request) (r : SwmrReadResponse)
    (h : n.answer id request = some r) : r.streamId = id := resolve_streamId h

theorem probe_name (n : SwmrNode) (id : String) (request : Request) (r : SwmrReadResponse)
    (h : n.probe id request = some r) : r.streamId = id := resolve_streamId h

theorem policy_late (n : SwmrNode) (id : String) (request : Request) :
    (n.policy.late id request).isSome = true := n.resolve_probe ..

theorem sweep_turn {m : SwmrNode} (hreaders : m.readers = n.readers) (tail : List SwmrOutput)
    (htail : (tail.map reply).all Reply.isOther = true) :
    Desk.Turn m.policy n.policy m.answerAllHeld.1.policy n.readers.desk .wake
      ((m.answerAllHeld.2 ++ tail).map reply) m.answerAllHeld.1.readers.desk := by
  rw [← hreaders]
  exact Streams.sweep_turn n.policy m.answer_name m.policy_late tail htail

theorem handle_wf (h : n.readers.Wf) (hsettled : n.readers.desk.Settled n.policy)
    (input : SwmrInput) : (n.handle input).1.readers.Wf := by
  have hspec := n.handle_spec input
  generalize n.handle input = result at hspec ⊢
  cases hspec with
  | refused writerId code hask hwriter => exact h
  | snapshotPush w payload hwrite => exact h.answerAllHeld
  | deltaPush w payload hwrite snapshot hsnapshot hroom => exact h.answerAllHeld
  | reset w reason detail hwrite =>
      rw [reset_sweep hsettled]
      exact Streams.Wf.answerAllHeld (t := n.readers) h
  | again hinput hterminal => exact h
  | «seal» hopen => exact h.answerAllHeld
  | close error hopen => exact h.answerAllHeld
  | read streamId request => exact h.read streamId request
  | endStream streamId => exact h.endStream n.stopWhen streamId
  | timerExpired token => exact h.timerExpired token

theorem handle_turn (h : n.readers.Wf) (hsound : n.readers.desk.Sound)
    (hsettled : n.readers.desk.Settled n.policy) (input : SwmrInput) :
    Desk.Turn (n.handle input).1.policy n.policy (n.handle input).1.policy n.readers.desk
      input.ask ((n.handle input).2.map reply) (n.handle input).1.readers.desk := by
  have hspec := n.handle_spec input
  generalize n.handle input = result at hspec ⊢
  cases hspec with
  | refused writerId code hask hwriter =>
      rw [hask]
      exact hsettled.idle_turn n.policy_late rfl
  | snapshotPush w payload hwrite =>
      have hturn := sweep_turn (n := n) (m := { n with
        writerId := some w, snapshot := some ⟨n.head, payload⟩, deltas := [] }) rfl [] rfl
      rw [List.append_nil] at hturn
      exact hturn
  | deltaPush w payload hwrite snapshot hsnapshot hroom =>
      have hturn := sweep_turn (n := n) (m := { n with
        writerId := some w
        deltas := n.deltas ++ [⟨n.head + 1 - 1, n.head + 1, payload⟩] }) rfl [] rfl
      rw [List.append_nil] at hturn
      exact hturn
  | reset w reason detail hwrite =>
      have hturn := sweep_turn (n := n) (m := wiped { n with writerId := some w } detail) rfl
        [] rfl
      rw [List.append_nil] at hturn
      rw [reset_sweep hsettled]
      exact hturn
  | again hinput hterminal =>
      have hask : input.ask = .wake := by
        rcases hinput with rfl | ⟨error, rfl⟩ <;> rfl
      rw [hask]
      exact hsettled.idle_turn n.policy_late rfl
  | «seal» hopen =>
      have hturn := sweep_turn (n := n) (m := { n with isSealed := true }) rfl [] rfl
      rw [List.append_nil] at hturn
      exact hturn
  | close error hopen =>
      exact sweep_turn (n := n) (m := { n with isClosed := true, closeError := error }) rfl
        [.producerStop (if error.isSome then .failed else .closed)] rfl
  | read streamId request =>
      obtain ⟨hmoves, hreplied⟩ := Streams.read_turn (δ := SwmrDiagnostic) n.probe
        Request.timeoutMs h streamId request (n.answer_name streamId request)
      exact Desk.turn_of_serve hmoves hreplied ⟨rfl, fun _ => rfl⟩ n.policy_late
  | endStream streamId =>
      obtain ⟨hmoves, tail, htail, hreplied⟩ := Streams.endStream_turn (α := SwmrReadResponse)
        (δ := SwmrDiagnostic) SwmrReadResponse.streamId h n.stopWhen streamId
      exact Desk.turn_of_moves hmoves ⟨tail, htail, hreplied⟩ n.policy_late
  | timerExpired token =>
      obtain ⟨hmoves, hreplied⟩ := Streams.timerExpired_turn (δ := SwmrDiagnostic)
        n.answer Request.timeoutMs h hsound n.probe_name token
      exact Desk.turn_of_serve hmoves hreplied rfl n.policy_late

end SwmrNode

theorem serves : Desk.Serves SwmrNode.handle (fun n => n.readers.desk) SwmrNode.policy
    SwmrInput.ask reply (fun _ => false) (fun n => n.readers.Wf) :=
  ⟨fun _ input h _ hsettled => SwmrNode.handle_wf h hsettled input,
    fun _ input h hsound hsettled => ⟨_, rfl, SwmrNode.handle_turn h hsound hsettled input⟩⟩

def exchange (stopWhen : StopWhen) (maxDeltas : Option Nat) (inputs : List SwmrInput) :
    List (Ask String Request × List (Reply String SwmrReadResponse)) :=
  Desk.exchange SwmrNode.handle SwmrInput.ask reply (SwmrNode.new stopWhen maxDeltas) inputs

theorem run_concat (stopWhen : StopWhen) (maxDeltas : Option Nat) (front : List SwmrInput)
    (input : SwmrInput) :
    run stopWhen maxDeltas (front ++ [input]) = ((run stopWhen maxDeltas front).handle input).1 :=
  after_concat _ _ _ _

theorem run_stands (stopWhen : StopWhen) (maxDeltas : Option Nat) (inputs : List SwmrInput) :
    Desk.Stands (fun n : SwmrNode => n.readers.desk) SwmrNode.policy (fun _ => false)
      (fun n => n.readers.Wf) (exchange stopWhen maxDeltas inputs)
      (run stopWhen maxDeltas inputs) :=
  serves.run Streams.desk_new Streams.wf_new inputs

/-! ## Resets -/

def resetNotice (detail : Option Bytes) (streamId : String) (held : HeldRead Request) :
    List SwmrOutput :=
  cancelTimer held.timerToken ++ [.readResponse (response held.request.swmrId streamId none [] none
    .reset (some .producerRequested) none detail)]

namespace SwmrNode

variable {n : SwmrNode}

theorem reset_eq {w : String} (h : n.MayWrite w) (hsettled : n.readers.desk.Settled n.policy)
    (reason : SwmrResetReason) (detail : Option Bytes) :
    n.handle (.reset w reason detail) =
      (wiped { n with writerId := some w } detail).answerAllHeld := by
  rw [← reset_sweep hsettled, handle, reset, if_neg (by simp [h.1]), checkWriter_of_mayWrite h]
  rfl

theorem answer_wiped (writerId : Option String) (detail : Option Bytes) {id : String}
    {request : Request} (hheld : n.answer id request = none) :
    (wiped { n with writerId := writerId } detail).answer id request =
      request.cursor.map fun _ => response request.swmrId id none [] none .reset
        (some .producerRequested) none detail := by
  rw [answer] at hheld
  cases hcursor : request.cursor with
  | some cursor =>
      rw [hcursor] at hheld
      have hepoch := (cursor_of_held hheld).1
      have hlt : cursor.epoch < (wiped { n with writerId := writerId } detail).epoch := by
        simp only [wiped]
        omega
      rw [answer, hcursor, resolve, if_pos (by simpa using hlt)]
      rfl
  | none =>
      rw [hcursor, resolve] at hheld
      simp only [Option.any_none, Bool.false_eq_true, if_false] at hheld
      rw [answer, hcursor, resolve]
      simp only [Option.any_none, Bool.false_eq_true, if_false, Option.map_none]
      split at hheld
      · exact hheld
      · simp at hheld

/-- A reset answers the held reads that have a cursor, in creation order, and keeps the
others with their timers. -/
theorem reset_answers (h : n.readers.Wf) (hsound : n.readers.desk.Sound)
    (hsettled : n.readers.desk.Settled n.policy) {w : String} (hwrite : n.MayWrite w)
    (reason : SwmrResetReason) (detail : Option Bytes) :
    (n.handle (.reset w reason detail)).2 = n.readers.order.flatMap (fun id =>
        (((n.readers.heldOf id).filter fun held => held.request.cursor.isSome).map
          (resetNotice detail id)).getD []) ∧
      ∀ id, (n.handle (.reset w reason detail)).1.readers.heldOf id =
        (n.readers.heldOf id).filter fun held => held.request.cursor.isNone := by
  have hanswer : ∀ {id : String} {held : HeldRead Request}, n.readers.heldOf id = some held → _ :=
    fun hheld => answer_wiped (n := n) (some w) detail (answer_of_settled hsettled hheld)
  rw [reset_eq hwrite hsettled]
  constructor
  · have hout : (wiped { n with writerId := some w } detail).answerAllHeld.2 = _ :=
      Streams.answerAllHeld_outputs (δ := SwmrDiagnostic) hsound.nodup
    rw [hout]
    congr 1
    funext id
    show Streams.released _ id (n.readers.heldOf id) = _
    cases hheld : n.readers.heldOf id with
    | none => rfl
    | some held =>
        rw [Streams.released, hanswer hheld]
        cases hcursor : held.request.cursor with
        | none => simp [Option.filter, hcursor]
        | some cursor => simp [Option.filter, hcursor, resetNotice]
  · intro id
    have hafter : (wiped { n with writerId := some w } detail).answerAllHeld.1.readers.heldOf id =
        _ := Streams.answerAllHeld_heldOf (δ := SwmrDiagnostic) h hsound.nodup id
    rw [hafter]
    show (n.readers.heldOf id).filter _ = _
    cases hheld : n.readers.heldOf id with
    | none => rfl
    | some held =>
        rw [Option.filter_some, Option.filter_some, hanswer hheld]
        cases held.request.cursor <;> rfl

end SwmrNode

/-! ## Whole runs -/

/-- **The held reads of the swmr engine.**  `order` lists the streams of the node in the
order of their creation; no held read could be answered; every run is accounted for; and
a reset answers exactly the held reads that have a cursor. -/
theorem held_read_protocol (stopWhen : StopWhen) (maxDeltas : Option Nat)
    (inputs : List SwmrInput) :
    let n := run stopWhen maxDeltas inputs
    let events := exchange stopWhen maxDeltas inputs
    (n.readers.order = roster (inputs.map fun input => Desk.arrival input.ask) ∧
      n.readers.order.Nodup ∧ ∀ id, id ∈ n.readers.order ↔ id ∈ n.readers.streams) ∧
    (∀ id held, n.readers.heldOf id = some held →
      n.resolve held.request.swmrId id held.request.cursor held.request.timeoutMs = none) ∧
    (∃ L : Ledger String Request SwmrReadResponse, Ledger.audit events = some L ∧
      L.Accounts (Ledger.asked events) (Ledger.expiries events) (Ledger.replies events) ∧
      ∀ id, (n.readers.heldOf id).map HeldRead.kept = (L.waiting id).map Desk.parked) ∧
    ∀ writerId reason detail, n.MayWrite writerId →
      let (n', out) := n.handle (.reset writerId reason detail)
      out = n.readers.order.flatMap (fun id =>
          (((n.readers.heldOf id).filter fun held => held.request.cursor.isSome).map
            (resetNotice detail id)).getD []) ∧
        ∀ id, n'.readers.heldOf id =
          (n.readers.heldOf id).filter fun held => held.request.cursor.isNone := by
  intro n events
  have hstands := run_stands stopWhen maxDeltas inputs
  refine ⟨⟨?_, hstands.sound.nodup, hstands.inv.keys⟩, ?_, hstands.accounts, ?_⟩
  · exact hstands.order.trans (congrArg roster (Desk.exchange_arrivals _ inputs))
  · exact fun id held hheld => SwmrNode.answer_of_settled hstands.settled hheld
  · intro writerId reason detail hwrite
    exact SwmrNode.reset_answers hstands.inv hstands.sound hstands.settled hwrite reason detail

end TautShape.Swmr
