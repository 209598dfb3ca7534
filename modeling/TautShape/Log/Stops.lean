import TautShape.Log.Wakeup
import TautShape.Lib.Stopping
/-!
# When the log engine stops its producer

Only an end can take the last stream away, and only the first close gets past the
lifecycle: no other input has anything to say to the producer.
-/

namespace TautShape.Log

open TautShape.Lib

def StopReason.stop : StopReason → Stop
  | .lastReaderGone => .deserted
  | .closed => .ended false
  | .failed => .ended true

def Output.stop : Output → Option Stop
  | .producerStop reason => some reason.stop
  | _ => none

def Input.closing : Input → Option Bool
  | .close error => some error.isSome
  | _ => none

def signals : Signals StreamId Input Output where
  presence event := event.1.presence
  closing := Input.closing
  stop := Output.stop

/-! ## Outputs that are about a read -/

@[simp] theorem stops_cancelTimer (timer : Option TimerToken) :
    signals.stops (LogNode.cancelTimer timer) = [] := by
  cases timer <;> rfl

@[simp] theorem stops_response (r : Response) : signals.stops [.response r] = [] := rfl

namespace LogNode

variable {n : LogNode} {order : List StreamId}

theorem stops_receive (n : LogNode) (id : StreamId) (r : Request) :
    signals.stops (n.receive id r).out = [] := by
  have hspec := n.receive_spec id r
  generalize n.receive id r = reception at hspec
  cases hspec <;> rfl

theorem stops_onRead (n : LogNode) (id : StreamId) (r : Request) :
    signals.stops (n.onRead id r.cursor r.limits r.timeoutMs).2 = [] := by
  rw [(n.onRead_receives id r).emits, Signals.stops_append, stops_cancelTimer, stops_receive]
  rfl

theorem stops_releaseHeld (n : LogNode) : signals.stops n.releaseHeld.2 = [] := by
  apply Signals.stops_eq_nil
  apply outputs_forall
  intro m id
  apply List.filterMap_eq_nil_iff.mp
  show signals.stops (m.releaseOne id).2 = []
  rw [(m.releaseOne_frees id).emits]
  cases m.sessions.heldOf id with
  | none => rfl
  | some held =>
      rw [release]
      cases m.answerOf id held.cursor held.limits with
      | none => rfl
      | some response =>
          show signals.stops (cancelTimer held.timer ++ [.response response]) = []
          rw [Signals.stops_append, stops_cancelTimer, stops_response]
          rfl

/-! ## What an input leaves -/

def isClosed (n : LogNode) : Bool :=
  match n.window.lifecycle with
  | .closed | .failed _ => true
  | .live | .sealed => false

theorem isClosed_congr {m : LogNode} (h : m.window = n.window) : m.isClosed = n.isClosed := by
  rw [isClosed, isClosed, h]

theorem releaseHeld_isClosed (n : LogNode) : n.releaseHeld.1.isClosed = n.isClosed :=
  isClosed_congr n.releaseHeld_frame.1

theorem resolveHeld_stopWhen (n : LogNode) (id : StreamId) (held : HeldRead) :
    (n.resolveHeld id held).1.stopWhen = n.stopWhen := by
  unfold resolveHeld
  split <;> rfl

theorem releaseOne_stopWhen (n : LogNode) (id : StreamId) :
    (n.releaseOne id).1.stopWhen = n.stopWhen := by
  unfold releaseOne
  split
  · rfl
  · rename_i sessions held _
    have hresolved := resolveHeld_stopWhen { n with sessions := sessions } id held
    generalize ({ n with sessions := sessions } : LogNode).resolveHeld id held = result
      at hresolved ⊢
    obtain ⟨m, response, out⟩ := result
    cases response <;> exact hresolved

theorem releaseHeld_stopWhen (n : LogNode) : n.releaseHeld.1.stopWhen = n.stopWhen :=
  after_induction (P := fun m : LogNode => m.stopWhen = n.stopWhen) releaseOne rfl
    fun m id _ hm => (m.releaseOne_stopWhen id).trans hm

theorem onRead_stopWhen (n : LogNode) (id : StreamId) (cursor : Option Cursor) (limits : Limits)
    (timeoutMs : Option Nat) : (n.onRead id cursor limits timeoutMs).1.stopWhen = n.stopWhen := by
  simp only [onRead]
  split
  · rfl
  · rfl
  · rfl
  · split <;> rfl

theorem handle_stopWhen (n : LogNode) (input : Input) :
    (n.handle input).1.stopWhen = n.stopWhen := by
  cases input with
  | push payload =>
      rw [handle, onPush]
      split
      · exact releaseHeld_stopWhen _
      · rfl
  | «seal» => exact releaseHeld_stopWhen _
  | close error =>
      rw [handle, onClose]
      split
      · rfl
      · rfl
      · exact releaseHeld_stopWhen _
  | read id cursor limits timeoutMs => exact n.onRead_stopWhen id cursor limits timeoutMs
  | endStream id =>
      rw [handle, onEndStream]
      split <;> rfl
  | timerExpired token =>
      rw [handle, onTimerExpired]
      split
      · rfl
      · split <;> rfl
  | evict upToSeq => rfl

theorem seal_isClosed (n : LogNode) :
    isClosed { n with window := n.window.seal } = n.isClosed := by
  simp only [isClosed, Window.seal]
  cases hlife : n.window.lifecycle <;> simp [hlife]

theorem close_isClosed (n : LogNode) (error : Option Error) :
    isClosed { n with window := n.window.close error } = true := by
  simp only [isClosed, Window.close]
  cases hlife : n.window.lifecycle <;> cases error <;> simp [hlife]

theorem handle_isClosed (n : LogNode) (input : Input) :
    (n.handle input).1.isClosed = (n.isClosed || input.closing.isSome) := by
  have hframe {m : LogNode} (hwindow : m.window = n.window) :
      m.isClosed = (n.isClosed || false) := by
    rw [isClosed_congr hwindow, Bool.or_false]
  cases input with
  | push payload =>
      rw [handle, onPush]
      split
      · rw [releaseHeld_isClosed]
        exact (Bool.or_false _).symm
      · exact hframe rfl
  | «seal» =>
      rw [handle, onSeal, releaseHeld_isClosed, seal_isClosed]
      exact (Bool.or_false _).symm
  | close error =>
      rw [handle, onClose, Input.closing, Option.isSome_some, Bool.or_true]
      split
      · rename_i hlife
        rw [isClosed, hlife]
      · rename_i hlife
        rw [isClosed, hlife]
      · rw [releaseHeld_isClosed, close_isClosed]
  | read id cursor limits timeoutMs => exact hframe (n.onRead_window id cursor limits timeoutMs)
  | endStream id => exact hframe (n.onEndStream_window id)
  | timerExpired token => exact hframe (n.onTimerExpired_window token)
  | evict upToSeq =>
      have hlife : (n.window.evict upToSeq).lifecycle = n.window.lifecycle := by
        rw [Window.evict]
        split <;> rfl
      rw [handle, onEvict, isClosed, hlife]
      exact (Bool.or_false _).symm

/-! ## What an input says -/

theorem len_of_ranked {t : Table} (h : t.Ranked order) : t.len = order.length := by
  apply size_eq_length
  · refine h.sorted.imp_of_mem fun {a b} ha _ hlt heq => ?_
    obtain ⟨rank, hrank⟩ := Option.isSome_iff_exists.mp ((h.mem_iff a).mp ha)
    exact absurd (hlt rank rank hrank (heq ▸ hrank)) (lt_irrefl rank)
  · intro id
    rw [h.mem_iff, Table.rankOf, Option.isSome_map, Std.ExtTreeMap.mem_iff_isSome_getElem?]

theorem onEndStream_stops (hranked : n.sessions.Ranked order) (id : StreamId) :
    signals.stops (n.onEndStream id).2 =
      if Signals.parts (n.stopWhen = .lastReader) order id then [.deserted] else [] := by
  have hparts := Signals.parts_iff (n.stopWhen = .lastReader) order id
  have hbefore := len_of_ranked hranked
  have hafter := len_of_ranked (hranked.remove id)
  have hremoved := n.sessions.remove_snd id
  rw [Presence.apply, ← hbefore, ← hafter] at hparts
  unfold onEndStream
  generalize hresult : n.sessions.remove id = result at hparts hremoved
  obtain ⟨sessions, entry⟩ := result
  cases entry with
  | none =>
      have hout : ¬Signals.parts (n.stopWhen = .lastReader) order id := by
        intro h
        have hid := (hranked.mem_iff id).mp h.2.1
        rw [Table.rankOf, ← hremoved] at hid
        simp at hid
      rw [if_neg hout]
      rfl
  | some entry =>
      show signals.stops (cancelTimer _ ++ _) = _
      rw [Signals.stops_append, stops_cancelTimer, List.nil_append]
      by_cases hlast : Signals.parts (n.stopWhen = .lastReader) order id
      · rw [if_pos hlast, if_pos (hparts.mp hlast)]
        rfl
      · rw [if_neg hlast, if_neg (hlast ∘ hparts.mpr)]
        rfl

theorem onClose_out (n : LogNode) (error : Option Error) :
    (n.onClose error).2 = if n.isClosed then [] else
      (releaseHeld { n with window := n.window.close error }).2 ++
        [.producerStop (if error.isSome then .failed else .closed)] := by
  rw [onClose, isClosed]
  cases hlife : n.window.lifecycle <;> rfl

theorem handle_tells (hn : n.sessions.Wf) (hranked : n.sessions.Ranked order) (input : Input) :
    signals.Tells (n.stopWhen = .lastReader) order n.isClosed (input, (n.handle input).2) := by
  cases input with
  | push payload =>
      apply Signals.Tells.nothing rfl (fun _ => rfl)
      rw [handle, onPush]
      split
      · exact stops_releaseHeld _
      · rfl
  | «seal» =>
      apply Signals.Tells.nothing rfl (fun _ => rfl)
      exact stops_releaseHeld _
  | close error =>
      apply Signals.tells_close rfl rfl (n.onClose_out error)
      · exact stops_releaseHeld _
      · cases error <;> rfl
  | read id cursor limits timeoutMs =>
      apply Signals.Tells.nothing rfl (fun _ => rfl)
      exact n.stops_onRead id ⟨cursor, limits, timeoutMs⟩
  | endStream id => exact .leaving id rfl rfl (onEndStream_stops hranked id)
  | timerExpired token =>
      apply Signals.Tells.nothing rfl (fun _ => rfl)
      rw [handle]
      rcases onTimerExpired_effect hn token with ⟨id, held, -, -, hout, -⟩ | ⟨-, hstep⟩
      · rw [hout]
        rfl
      · rw [hstep]
        rfl
  | evict upToSeq =>
      exact .nothing rfl (fun _ => rfl) rfl

end LogNode

/-! ## Whole runs -/

theorem run_stopWhen (config : Config) (inputs : List Input) :
    (run config inputs).stopWhen = config.stopWhen := by
  apply after_induction (P := fun n : LogNode => n.stopWhen = config.stopWhen) LogNode.handle rfl
  intro n input _ hn
  rw [n.handle_stopWhen, hn]

theorem live_eq (config : Config) (inputs : List Input) :
    signals.live (trace LogNode.handle (LogNode.new config) inputs) = creationOrder inputs :=
  Signals.live_of_inputs (fun _ => rfl) inputs

theorem lawful (config : Config) :
    signals.Lawful LogNode.handle (LogNode.new config) LogNode.streamCount
      (config.stopWhen = .lastReader) := by
  apply Signals.lawful LogNode.isClosed
  case hcount =>
    intro inputs
    rw [live_eq]
    exact LogNode.len_of_ranked (run_ranked config inputs)
  case hnew => rfl
  case hclosed => exact fun inputs input => (run config inputs).handle_isClosed input
  case htells =>
    intro inputs input
    have htells := LogNode.handle_tells (run_wf config inputs) (run_ranked config inputs) input
    simp only [run_stopWhen] at htells
    rw [live_eq]
    exact htells

end TautShape.Log
