import TautShape.Atom.Protocol
import TautShape.Held.Stops
/-!
# When the atom engine stops its producer
-/

namespace TautShape.Atom

open TautShape.Lib TautShape.Held
open TautShape.Log (StopWhen)

def AtomInput.closing : AtomInput → Option Bool
  | .close error => some error.isSome
  | _ => none

def signals : Signals String AtomInput AtomOutput :=
  Held.signals (fun event => Desk.arrival event.1.ask) AtomInput.closing

namespace AtomNode

variable {n : AtomNode}

theorem stops_answerAllHeld (n : AtomNode) : signals.stops n.answerAllHeld.2 = [] :=
  stops_of_aboutRead (n.readers.answerAllHeld_aboutRead n.answer)

theorem handle_kept (n : AtomNode) (input : AtomInput) :
    (n.handle input).1.stopWhen = n.stopWhen ∧
      (n.handle input).1.isClosed = (n.isClosed || input.closing.isSome) := by
  cases input with
  | replace payload =>
      rw [handle, AtomNode.replace]
      split <;> exact ⟨rfl, (Bool.or_false _).symm⟩
  | «seal» =>
      rw [handle, AtomNode.seal]
      split <;> exact ⟨rfl, (Bool.or_false _).symm⟩
  | close error =>
      rw [handle, AtomNode.close]
      split
      · rename_i hclosed
        exact ⟨rfl, by rw [hclosed]; rfl⟩
      · exact ⟨rfl, (Bool.or_true _).symm⟩
  | read id request => exact ⟨rfl, (Bool.or_false _).symm⟩
  | endStream id => exact ⟨rfl, (Bool.or_false _).symm⟩
  | timerExpired token => exact ⟨rfl, (Bool.or_false _).symm⟩

theorem close_out (n : AtomNode) (error : Option AtomError) :
    (n.close error).2 = if n.isClosed then [] else
      { n with isClosed := true, closeError := error : AtomNode }.answerAllHeld.2 ++
        [.producerStop (if error.isSome then .failed else .closed)] := by
  unfold AtomNode.close
  split <;> rfl

theorem handle_tells (h : n.readers.Wf) (input : AtomInput) :
    signals.Tells (n.stopWhen = .lastReader) n.readers.order n.isClosed
      (input, (n.handle input).2) := by
  cases input with
  | replace payload =>
      apply Signals.Tells.nothing rfl (fun _ => rfl)
      rw [handle, AtomNode.replace]
      split
      · rfl
      · exact stops_answerAllHeld _
  | «seal» =>
      apply Signals.Tells.nothing rfl (fun _ => rfl)
      rw [handle, AtomNode.seal]
      split
      · rfl
      · exact stops_answerAllHeld _
  | close error =>
      apply Signals.tells_close rfl rfl (n.close_out error)
      · exact stops_answerAllHeld _
      · cases error <;> rfl
  | read id request =>
      apply Signals.Tells.nothing rfl (fun _ => rfl)
      exact stops_of_aboutRead (n.readers.read_aboutRead n.answer Request.timeoutMs id request)
  | endStream id =>
      exact .leaving id rfl rfl (Streams.endStream_stops h n.stopWhen id)
  | timerExpired token =>
      apply Signals.Tells.nothing rfl (fun _ => rfl)
      exact stops_of_aboutRead (n.readers.timerExpired_aboutRead n.probe token)

end AtomNode

/-! ## Whole runs -/

theorem live_eq (stopWhen : StopWhen) (inputs : List AtomInput) :
    signals.live (trace AtomNode.handle (AtomNode.new stopWhen) inputs) =
      (run stopWhen inputs).readers.order :=
  Signals.live_of_stands (run_stands stopWhen inputs) fun event =>
    (Desk.presence_eq_arrival event.1.ask _).symm

theorem run_stopWhen (stopWhen : StopWhen) (inputs : List AtomInput) :
    (run stopWhen inputs).stopWhen = stopWhen := by
  apply after_induction (P := fun n : AtomNode => n.stopWhen = stopWhen) AtomNode.handle rfl
  exact fun n input _ hn => (n.handle_kept input).1.trans hn

theorem lawful (stopWhen : StopWhen) :
    signals.Lawful AtomNode.handle (AtomNode.new stopWhen) (fun n => n.readers.streams.size)
      (stopWhen = .lastReader) := by
  apply Signals.lawful AtomNode.isClosed
  case hcount =>
    intro inputs
    have hstands := run_stands stopWhen inputs
    rw [live_eq]
    exact Streams.size_eq hstands.inv hstands.sound
  case hnew => rfl
  case hclosed => exact fun inputs input => ((run stopWhen inputs).handle_kept input).2
  case htells =>
    intro inputs input
    have htells := AtomNode.handle_tells (run_stands stopWhen inputs).inv input
    simp only [run_stopWhen] at htells
    rw [live_eq]
    exact htells

end TautShape.Atom
