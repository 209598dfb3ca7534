import TautShape.Stream.Protocol
import TautShape.Held.Stops
/-!
# When the stream engine stops its producer

A reader also goes when its read is answered Dropped.  The sweep takes a reader out of the
map while it answers it and puts it back, so that nobody is missed who only waits.
-/

namespace TautShape.Stream

open TautShape.Lib TautShape.Held
open TautShape.Log (StopWhen)

def StreamInput.closing : StreamInput → Option Bool
  | .close error => some error.isSome
  | _ => none

def drops : StreamOutput → Bool
  | .readResponse r => parting r
  | _ => false

def presence : StreamInput × List StreamOutput → Presence String
  | (.read id _, out) => if out.any drops then .leave id else .join id
  | (.endStream id, _) => .leave id
  | _ => .stay

def signals : Signals String StreamInput StreamOutput :=
  Held.signals presence StreamInput.closing

theorem drops_eq (out : List StreamOutput) :
    ((out.map reply).filterMap Reply.answer?).any (fun p => parting p.2) = out.any drops := by
  induction out with
  | nil => rfl
  | cons o rest ih =>
      rw [List.any_cons, ← ih]
      cases o <;> rfl

theorem presence_eq (event : StreamInput × List StreamOutput) :
    Desk.presence parting (event.1.ask, event.2.map reply) = presence event := by
  obtain ⟨input, out⟩ := event
  cases input with
  | read id request =>
      show (if _ then _ else _) = (if _ then _ else _)
      rw [drops_eq]
  | _ => rfl

namespace StreamNode

variable {n m : StreamNode}

/-! ## Sweeps -/

theorem stops_cancelTimer (token : Option Int) : signals.stops (cancelTimer token) = [] :=
  stops_of_aboutRead (cancelTimer_aboutRead token)

theorem released_aboutRead (n : StreamNode) (id : String) (entry : Option Reader) :
    ∀ o ∈ (released n id entry).2, o.aboutRead = true := by
  unfold released
  split
  · exact fun _ ho => absurd ho List.not_mem_nil
  · split
    · exact fun _ ho => absurd ho List.not_mem_nil
    · split
      · exact fun _ ho => absurd ho List.not_mem_nil
      · exact aboutRead_append (cancelTimer_aboutRead _) (aboutRead_singleton rfl)

theorem stops_answerAllHeld (h : Sweeping m m) (hsound : m.desk.Sound) :
    signals.stops m.answerAllHeld.2 = [] := by
  rw [answerAllHeld_outputs h hsound]
  apply stops_of_aboutRead
  intro o ho
  obtain ⟨id, -, hout⟩ := List.mem_flatMap.mp ho
  exact released_aboutRead m id _ o hout

/-! ## Readers that leave -/

theorem endStream_stops (h : n.Wf) (id : String) :
    signals.stops (n.endStream id).2 =
      if Signals.parts (n.stopWhen = .lastReader) n.order id then [.deserted] else [] := by
  unfold endStream
  cases hentry : n.readers[id]? with
  | none =>
      have hout : id ∉ n.order := by
        rw [h.keys, Std.ExtTreeMap.mem_iff_isSome_getElem?, hentry]
        simp
      rw [if_neg fun hparts => hout hparts.2.1]
      rfl
  | some reader =>
      have hin : id ∈ n.readers := (mem_readers_iff n id).mpr ⟨reader, hentry⟩
      simp only [removeReader, Std.ExtTreeMap.contains_iff_mem.mpr hin, if_true]
      rw [Signals.stops_append, stops_cancelTimer, List.nil_append]
      exact stops_of_last ((h.keys id).mpr hin) (h.forget id).keys n.stopWhen

theorem listed_of_dropped (h : n.Wf) {id : String} {request : Request} {r : StreamReadResponse}
    (hanswer : n.answer id request = some r) (hstate : r.state = .dropped) : id ∈ n.order := by
  by_contra hout
  have hnone : n.readers[id]? = none := by
    rw [h.keys] at hout
    exact Std.ExtTreeMap.getElem?_eq_none hout
  have hcursor : (n.readerOf id).cursor = n.head := by rw [readerOf, hnone]
  exact not_dropped_at_head h hcursor hanswer hstate

/-- The reader of a read that is answered Dropped is out of the map when the producer is
looked after. -/
theorem read_of_dropped {id : String} {request : Request} {r : StreamReadResponse}
    (hanswer : n.answer id request = some r) (hstate : r.state = .dropped) :
    (n.read id request).2 = cancelTimer ((n.heldOf id).bind HeldRead.timerToken) ++
      [.readResponse r] ++ (((n.ensureReader id).removeFromMap id).forget id).stopIfLastReader := by
  obtain ⟨reader, hentry, hreader, hheld⟩ := n.ensureReader_entry id
  have hresolve : ((n.ensureReader id).removeFromMap id).resolve = n.resolve :=
    n.ensureReader_resolve id
  rw [answer] at hanswer
  rw [read, hentry]
  simp only [hreader, hresolve, hheld]
  generalize n.resolve id (n.readerOf id) request = result at hanswer ⊢
  obtain ⟨reader', response⟩ := result
  obtain rfl : response = some r := hanswer
  simp only [hstate, if_true]

theorem dropped_stops (h : n.Wf) (id : String) (request : Request) (r : StreamReadResponse)
    (hanswer : n.answer id request = some r) (hstate : r.state = .dropped) :
    signals.stops (n.read id request).2 =
      if Signals.parts (n.stopWhen = .lastReader) n.order id then [.deserted] else [] := by
  have hkeys := ((h.ensureReader id).forget id).keys
  have hstrike : strike (n.ensureReader id).order id = strike n.order id := by
    rw [ensureReader_order h, strike_enrol_self]
  have hstopWhen : (((n.ensureReader id).removeFromMap id).forget id).stopWhen = n.stopWhen := by
    show (n.ensureReader id).stopWhen = n.stopWhen
    unfold ensureReader
    split <;> rfl
  rw [read_of_dropped hanswer hstate, Signals.stops_append, Signals.stops_append,
    stops_cancelTimer, ← hstopWhen]
  exact stops_of_last (listed_of_dropped h hanswer hstate) (hstrike ▸ hkeys) _

theorem cancelTimer_drops (token : Option Int) :
    (cancelTimer token : List StreamOutput).any drops = false := by
  cases token <;> rfl

theorem read_tells (h : n.Wf) (id : String) (request : Request) :
    signals.Tells (n.stopWhen = .lastReader) n.order n.isClosed
      (.read id request, (n.read id request).2) := by
  have hstops := dropped_stops h id request
  have hspec := n.read_spec id request
  have hpresent : ∀ out, signals.presence (.read id request, out) =
      if out.any drops then .leave id else .join id := fun _ => rfl
  have hstays {out : List StreamOutput} (hdrops : out.any drops = false) :
      Signals.departs (signals.presence (.read id request, out)) = false := by
    rw [hpresent, hdrops]
    rfl
  generalize n.read id request = result at hspec hstops ⊢
  cases hspec with
  | dropped r hanswer hstate stop hstop =>
      apply Signals.Tells.leaving id _ rfl (hstops r hanswer hstate)
      rw [hpresent, if_pos]
      simp [drops, parting, hstate]
  | answered r reader hanswer hstate =>
      apply Signals.Tells.nothing (hstays _) (fun _ => rfl)
      · apply stops_of_aboutRead
        exact aboutRead_append (cancelTimer_aboutRead _) (aboutRead_singleton rfl)
      · simp [cancelTimer_drops, drops, parting, hstate]
  | timed ms hanswer htimed =>
      apply Signals.Tells.nothing (hstays _) (fun _ => rfl)
      · apply stops_of_aboutRead
        exact aboutRead_append (cancelTimer_aboutRead _) (aboutRead_singleton rfl)
      · simp [cancelTimer_drops, drops]
  | untimed hanswer htimed =>
      exact .nothing (hstays (cancelTimer_drops _)) (fun _ => rfl) (stops_cancelTimer _)

/-! ## One input -/

theorem answerAllHeld_kept (h : Sweeping m m) : m.answerAllHeld.1.stopWhen = m.stopWhen ∧
    m.answerAllHeld.1.isClosed = m.isClosed ∧ m.answerAllHeld.1.closeError = m.closeError := by
  rw [(answerAllHeld_frame h).1]
  exact ⟨rfl, rfl, rfl⟩

theorem close_out (h : n.Wf) (hsettled : n.desk.Settled n.policy) (error : Option StreamError) :
    (n.close error).2 = if n.isClosed then [] else
      { n with isClosed := true, closeError := error : StreamNode }.answerAllHeld.2 ++
        [.producerStop (if error.isSome then .failed else .closed)] := by
  have hkept := answerAllHeld_kept (sweeping_stopped h hsettled n.isSealed true error)
  rw [StreamNode.close]
  split
  · rfl
  · simp only [hkept.2.2]

theorem read_kept (n : StreamNode) (id : String) (request : Request) :
    (n.read id request).1.stopWhen = n.stopWhen ∧
      (n.read id request).1.isClosed = n.isClosed := by
  have hensured : (n.ensureReader id).stopWhen = n.stopWhen ∧
      (n.ensureReader id).isClosed = n.isClosed := by
    unfold ensureReader
    split <;> exact ⟨rfl, rfl⟩
  have hspec := n.read_spec id request
  generalize n.read id request = result at hspec ⊢
  cases hspec <;> exact hensured

theorem handle_kept (h : n.Wf) (hsettled : n.desk.Settled n.policy) (input : StreamInput) :
    (n.handle input).1.stopWhen = n.stopWhen ∧
      (n.handle input).1.isClosed = (n.isClosed || input.closing.isSome) := by
  have hopen (hclosing : input.closing.isSome = false) {m : StreamNode}
      (hkept : m.stopWhen = n.stopWhen ∧ m.isClosed = n.isClosed) : m.stopWhen = n.stopWhen ∧
        m.isClosed = (n.isClosed || input.closing.isSome) := by
    rw [hclosing, Bool.or_false]
    exact hkept
  cases input with
  | push payload =>
      apply hopen rfl
      rw [handle, push]
      split
      · exact ⟨rfl, rfl⟩
      · have hkept := answerAllHeld_kept (sweeping_pushed h hsettled payload)
        exact ⟨hkept.1, hkept.2.1⟩
  | «seal» =>
      apply hopen rfl
      rw [handle, StreamNode.seal]
      split
      · exact ⟨rfl, rfl⟩
      · have hkept := answerAllHeld_kept
          (sweeping_stopped h hsettled true n.isClosed n.closeError)
        exact ⟨hkept.1, hkept.2.1⟩
  | close error =>
      rw [StreamInput.closing, Option.isSome_some, Bool.or_true, handle, StreamNode.close]
      split
      · rename_i hclosed
        exact ⟨rfl, hclosed⟩
      · have hkept := answerAllHeld_kept (sweeping_stopped h hsettled n.isSealed true error)
        exact ⟨hkept.1, hkept.2.1⟩
  | read id request => exact hopen rfl (n.read_kept id request)
  | endStream id =>
      apply hopen rfl
      rw [handle]
      have hspec := n.endStream_spec id
      generalize n.endStream id = result at hspec ⊢
      cases hspec <;> exact ⟨rfl, rfl⟩
  | timerExpired token =>
      apply hopen rfl
      rw [handle]
      have hspec := timerExpired_spec h token
      generalize n.timerExpired token = result at hspec ⊢
      cases hspec <;> exact ⟨rfl, rfl⟩

theorem handle_tells (h : n.Wf) (hsound : n.desk.Sound) (hsettled : n.desk.Settled n.policy)
    (input : StreamInput) :
    signals.Tells (n.stopWhen = .lastReader) n.order n.isClosed (input, (n.handle input).2) := by
  cases input with
  | push payload =>
      apply Signals.Tells.nothing rfl (fun _ => rfl)
      rw [handle, push]
      split
      · rfl
      · exact stops_answerAllHeld (sweeping_pushed h hsettled payload) hsound
  | «seal» =>
      apply Signals.Tells.nothing rfl (fun _ => rfl)
      rw [handle, StreamNode.seal]
      split
      · rfl
      · exact stops_answerAllHeld (sweeping_stopped h hsettled true n.isClosed n.closeError) hsound
  | close error =>
      apply Signals.tells_close rfl rfl (close_out h hsettled error)
      · exact stops_answerAllHeld (sweeping_stopped h hsettled n.isSealed true error) hsound
      · cases error <;> rfl
  | read id request => exact read_tells h id request
  | endStream id => exact .leaving id rfl rfl (endStream_stops h id)
  | timerExpired token =>
      apply Signals.Tells.nothing rfl (fun _ => rfl)
      rw [handle]
      have hspec := timerExpired_spec h token
      generalize n.timerExpired token = result at hspec ⊢
      cases hspec <;> rfl

end StreamNode

/-! ## Whole runs -/

variable (capacityRecords : Nat) (capacity_pos : 0 < capacityRecords) (stopWhen : StopWhen)

theorem live_eq (inputs : List StreamInput) :
    signals.live (trace StreamNode.handle (.new capacityRecords capacity_pos stopWhen) inputs) =
      (run capacityRecords capacity_pos stopWhen inputs).order :=
  Signals.live_of_stands (run_stands capacityRecords capacity_pos stopWhen inputs) fun event =>
    (presence_eq event).symm

theorem run_stopWhen (inputs : List StreamInput) :
    (run capacityRecords capacity_pos stopWhen inputs).stopWhen = stopWhen := by
  induction inputs using List.reverseRecOn with
  | nil => rfl
  | append_singleton front input ih =>
      have hstands := run_stands capacityRecords capacity_pos stopWhen front
      rw [run, after_concat]
      exact (StreamNode.handle_kept hstands.inv hstands.settled input).1.trans ih

theorem lawful : signals.Lawful StreamNode.handle (.new capacityRecords capacity_pos stopWhen)
    (fun n => n.readers.size) (stopWhen = .lastReader) := by
  apply Signals.lawful StreamNode.isClosed
  case hcount =>
    intro inputs
    have hstands := run_stands capacityRecords capacity_pos stopWhen inputs
    rw [live_eq]
    exact size_eq_length hstands.sound.nodup hstands.inv.keys
  case hnew => rfl
  case hclosed =>
    intro inputs input
    have hstands := run_stands capacityRecords capacity_pos stopWhen inputs
    exact (StreamNode.handle_kept hstands.inv hstands.settled input).2
  case htells =>
    intro inputs input
    have hstands := run_stands capacityRecords capacity_pos stopWhen inputs
    have htells := StreamNode.handle_tells hstands.inv hstands.sound hstands.settled input
    simp only [run_stopWhen] at htells
    rw [live_eq]
    exact htells

end TautShape.Stream
