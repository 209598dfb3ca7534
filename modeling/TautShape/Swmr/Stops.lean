import TautShape.Swmr.Protocol
import TautShape.Held.Stops
/-!
# When the swmr engine stops its producer
-/

namespace TautShape.Swmr

open TautShape.Lib TautShape.Held
open TautShape.Log (StopWhen)

def SwmrInput.closing : SwmrInput → Option Bool
  | .close error => some error.isSome
  | _ => none

def signals : Signals String SwmrInput SwmrOutput :=
  Held.signals (fun event => Desk.arrival event.1.ask) SwmrInput.closing

namespace SwmrNode

variable {n : SwmrNode}

theorem stops_answerAllHeld (n : SwmrNode) : signals.stops n.answerAllHeld.2 = [] :=
  stops_of_aboutRead (n.readers.answerAllHeld_aboutRead n.answer)

theorem resetHeld_aboutRead (reason : SwmrResetReason) (n : SwmrNode) (id : String) :
    ∀ o ∈ (resetHeld reason n id).2, o.aboutRead = true := by
  unfold resetHeld
  split
  · exact fun _ ho => absurd ho List.not_mem_nil
  · rename_i held _
    have hcancel := cancelTimer_aboutRead (α := SwmrReadResponse) (δ := SwmrDiagnostic)
      held.timerToken
    split
    · split
      · exact aboutRead_append hcancel (aboutRead_singleton rfl)
      · exact fun _ ho => absurd ho List.not_mem_nil
    · exact aboutRead_append hcancel (aboutRead_singleton rfl)

structure Keeps (n m : SwmrNode) : Prop where
  stopWhen : m.stopWhen = n.stopWhen
  isClosed : m.isClosed = n.isClosed

theorem resetHeld_keeps (reason : SwmrResetReason) (n : SwmrNode) (id : String) :
    Keeps n (resetHeld reason n id).1 := by
  unfold resetHeld
  split
  · exact ⟨rfl, rfl⟩
  · split
    · split <;> exact ⟨rfl, rfl⟩
    · exact ⟨rfl, rfl⟩

def Writes (input : SwmrInput) : Prop :=
  input.ask = .wake ∧ input ≠ .seal ∧ input.closing = none

theorem write_stops (n : SwmrNode) (input : SwmrInput) (h : Writes input) :
    Keeps n (n.handle input).1 ∧ signals.stops (n.handle input).2 = [] := by
  obtain ⟨hask, hseal, hclose⟩ := h
  have hspec := n.handle_spec input
  generalize n.handle input = result at hspec ⊢
  cases hspec with
  | refused writerId code => exact ⟨⟨rfl, rfl⟩, rfl⟩
  | snapshotPush w payload hwrite => exact ⟨⟨rfl, rfl⟩, stops_answerAllHeld _⟩
  | deltaPush w payload hwrite => exact ⟨⟨rfl, rfl⟩, stops_answerAllHeld _⟩
  | reset w reason detail hwrite =>
      constructor
      · have hstart : Keeps n (wiped { n with writerId := some w } detail) := ⟨rfl, rfl⟩
        apply after_induction (P := Keeps n) (resetHeld .producerRequested) hstart
        intro m id _ hm
        have hone := resetHeld_keeps .producerRequested m id
        exact ⟨hone.stopWhen.trans hm.stopWhen, hone.isClosed.trans hm.isClosed⟩
      · apply stops_of_aboutRead
        exact outputs_forall _ (resetHeld_aboutRead _) _ _
  | again hinput =>
      rcases hinput with rfl | ⟨error, rfl⟩
      · exact absurd rfl hseal
      · cases hclose
  | «seal» => exact absurd rfl hseal
  | close error => cases hclose
  | read id request => cases hask
  | endStream id => cases hask
  | timerExpired token => cases hask

theorem close_out (n : SwmrNode) (error : Option SwmrError) :
    (n.close error).2 = if n.isClosed then [] else
      { n with isClosed := true, closeError := error : SwmrNode }.answerAllHeld.2 ++
        [.producerStop (if error.isSome then .failed else .closed)] := by
  unfold SwmrNode.close
  split <;> rfl

theorem handle_kept (n : SwmrNode) (input : SwmrInput) :
    (n.handle input).1.stopWhen = n.stopWhen ∧
      (n.handle input).1.isClosed = (n.isClosed || input.closing.isSome) := by
  have hwrites (h : Writes input) : (n.handle input).1.stopWhen = n.stopWhen ∧
      (n.handle input).1.isClosed = (n.isClosed || false) := by
    rw [Bool.or_false]
    exact ⟨(n.write_stops input h).1.stopWhen, (n.write_stops input h).1.isClosed⟩
  cases input with
  | snapshotPush w payload => exact hwrites ⟨rfl, by simp, rfl⟩
  | deltaPush w payload => exact hwrites ⟨rfl, by simp, rfl⟩
  | reset w reason detail => exact hwrites ⟨rfl, by simp, rfl⟩
  | «seal» =>
      rw [handle, SwmrNode.seal]
      split <;> exact ⟨rfl, (Bool.or_false _).symm⟩
  | close error =>
      rw [handle, SwmrNode.close]
      split
      · rename_i hclosed
        exact ⟨rfl, by rw [hclosed]; rfl⟩
      · exact ⟨rfl, (Bool.or_true _).symm⟩
  | read id request => exact ⟨rfl, (Bool.or_false _).symm⟩
  | endStream id => exact ⟨rfl, (Bool.or_false _).symm⟩
  | timerExpired token => exact ⟨rfl, (Bool.or_false _).symm⟩

theorem handle_tells (h : n.readers.Wf) (input : SwmrInput) :
    signals.Tells (n.stopWhen = .lastReader) n.readers.order n.isClosed
      (input, (n.handle input).2) := by
  have hwrites (h : Writes input) : signals.stops (n.handle input).2 = [] :=
    (n.write_stops input h).2
  cases input with
  | snapshotPush w payload =>
      exact .nothing rfl (fun _ => rfl) (hwrites ⟨rfl, by simp, rfl⟩)
  | deltaPush w payload =>
      exact .nothing rfl (fun _ => rfl) (hwrites ⟨rfl, by simp, rfl⟩)
  | reset w reason detail =>
      exact .nothing rfl (fun _ => rfl) (hwrites ⟨rfl, by simp, rfl⟩)
  | «seal» =>
      apply Signals.Tells.nothing rfl (fun _ => rfl)
      rw [handle, SwmrNode.seal]
      split
      · rfl
      · exact stops_answerAllHeld _
  | close error =>
      apply Signals.tells_close rfl rfl (n.close_out error)
      · exact stops_answerAllHeld _
      · cases error <;> rfl
  | read id request =>
      apply Signals.Tells.nothing rfl (fun _ => rfl)
      exact stops_of_aboutRead (n.readers.read_aboutRead n.answer Request.timeoutMs id request)
  | endStream id =>
      exact .leaving id rfl rfl (Streams.endStream_stops h n.stopWhen id)
  | timerExpired token =>
      apply Signals.Tells.nothing rfl (fun _ => rfl)
      exact stops_of_aboutRead (n.readers.timerExpired_aboutRead n.probe token)

end SwmrNode

/-! ## Whole runs -/

variable (stopWhen : StopWhen) (maxDeltas : Option Nat)

theorem live_eq (inputs : List SwmrInput) :
    signals.live (trace SwmrNode.handle (SwmrNode.new stopWhen maxDeltas) inputs) =
      (run stopWhen maxDeltas inputs).readers.order :=
  Signals.live_of_stands (run_stands stopWhen maxDeltas inputs) fun event =>
    (Desk.presence_eq_arrival event.1.ask _).symm

theorem run_stopWhen (inputs : List SwmrInput) :
    (run stopWhen maxDeltas inputs).stopWhen = stopWhen := by
  apply after_induction (P := fun n : SwmrNode => n.stopWhen = stopWhen) SwmrNode.handle rfl
  exact fun n input _ hn => (n.handle_kept input).1.trans hn

theorem lawful : signals.Lawful SwmrNode.handle (SwmrNode.new stopWhen maxDeltas)
    (fun n => n.readers.streams.size) (stopWhen = .lastReader) := by
  apply Signals.lawful SwmrNode.isClosed
  case hcount =>
    intro inputs
    have hstands := run_stands stopWhen maxDeltas inputs
    rw [live_eq]
    exact Streams.size_eq hstands.inv hstands.sound
  case hnew => rfl
  case hclosed => exact fun inputs input => ((run stopWhen maxDeltas inputs).handle_kept input).2
  case htells =>
    intro inputs input
    have htells := SwmrNode.handle_tells (run_stands stopWhen maxDeltas inputs).inv input
    simp only [run_stopWhen] at htells
    rw [live_eq]
    exact htells

end TautShape.Swmr
