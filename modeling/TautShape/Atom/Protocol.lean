import TautShape.Atom.Node
import TautShape.Held.Refine
import TautShape.Lib.Intake
/-!
# The held reads of the atom engine

`handle_spec` says once what an input can do, and every input is a turn of the desk.  A
read is held only if its reader has the value that the node has.
-/

namespace TautShape.Atom

open TautShape.Lib TautShape.Held
open TautShape.Log (Bytes StopWhen)

def AtomInput.ask : AtomInput → Ask String Request
  | .read streamId request => .read streamId request
  | .endStream streamId => .leave streamId
  | .timerExpired token => .expire token.toNat
  | _ => .wake

def reply : AtomOutput → Reply String AtomReadResponse := Output.reply AtomReadResponse.streamId

namespace AtomNode

variable {n : AtomNode}

def policy (n : AtomNode) : Policy String Request AtomReadResponse :=
  Held.policy n.answer n.probe Request.timeoutMs

/-! ## Responses -/

/-- A probe is never held, which the source unwraps. -/
theorem resolve_probe (n : AtomNode) (atomId streamId : String) (version : Int) :
    (n.resolve atomId streamId version (some 0)).isSome = true := by
  unfold resolve
  split
  · rfl
  · simp only [Option.isSome_map]
    split
    · rfl
    · split <;> rfl

theorem resolve_streamId {atomId streamId : String} {version : Int} {timeoutMs : Option Int}
    {r : AtomReadResponse} (h : n.resolve atomId streamId version timeoutMs = some r) :
    r.streamId = streamId := by
  unfold resolve at h
  split at h
  · exact Option.some.inj h ▸ rfl
  · obtain ⟨state, -, hr⟩ := Option.map_eq_some_iff.mp h
    exact hr ▸ rfl

theorem answer_name (n : AtomNode) (id : String) (request : Request) (r : AtomReadResponse)
    (h : n.answer id request = some r) : r.streamId = id := resolve_streamId h

theorem probe_name (n : AtomNode) (id : String) (request : Request) (r : AtomReadResponse)
    (h : n.probe id request = some r) : r.streamId = id := resolve_streamId h

/-- A read that is held comes from a reader that has the value of the node. -/
theorem known_of_held {id : String} {request : Request} (h : n.answer id request = none) :
    n.version ≤ request.known := by
  rw [answer, resolve] at h
  by_contra hbehind
  rw [if_pos (by omega)] at h
  simp at h

/-! ## One input -/

inductive Handled (n : AtomNode) : AtomInput → AtomNode × List AtomOutput → Prop
  | refused (payload : Bytes) (hterminal : (n.isSealed || n.isClosed) = true) :
      Handled n (.replace payload) (n, [.diagnostic ⟨.warn, .replaceAfterTerminal⟩])
  | replace (payload : Bytes) (hopen : (n.isSealed || n.isClosed) = false) :
      Handled n (.replace payload)
        { n with version := n.version + 1, payload := some payload : AtomNode }.answerAllHeld
  /-- A second seal or close. -/
  | again {input : AtomInput} (hinput : input = .seal ∨ ∃ error, input = .close error)
      (hterminal : (n.isSealed || n.isClosed) = true) : Handled n input (n, [])
  | «seal» (hopen : n.isSealed = false) :
      Handled n .seal { n with isSealed := true : AtomNode }.answerAllHeld
  | close (error : Option AtomError) (stop : StopReason) (hopen : n.isClosed = false) :
      Handled n (.close error)
        ({ n with isClosed := true, closeError := error : AtomNode }.answerAllHeld.1,
          { n with isClosed := true, closeError := error : AtomNode }.answerAllHeld.2 ++
            [.producerStop stop])
  | read (streamId : String) (request : Request) :
      Handled n (.read streamId request) (n.read streamId request)
  | endStream (streamId : String) : Handled n (.endStream streamId) (n.endStream streamId)
  | timerExpired (token : Int) : Handled n (.timerExpired token) (n.timerExpired token)

theorem handle_spec (n : AtomNode) (input : AtomInput) : Handled n input (n.handle input) := by
  cases input with
  | replace payload =>
      rw [handle, AtomNode.replace]
      split
      · rename_i hterminal
        exact .refused payload hterminal
      · rename_i hopen
        exact .replace payload (by simpa using hopen)
  | «seal» =>
      rw [handle, AtomNode.seal]
      split
      · rename_i hsealed
        exact .again (.inl rfl) (by simp [hsealed])
      · rename_i hopen
        exact .seal (by simpa using hopen)
  | close error =>
      rw [handle, AtomNode.close]
      split
      · rename_i hclosed
        exact .again (.inr ⟨error, rfl⟩) (by simp [hclosed])
      · rename_i hopen
        exact .close error _ (by simpa using hopen)
  | read streamId request => exact .read streamId request
  | endStream streamId => exact .endStream streamId
  | timerExpired token => exact .timerExpired token

/-! ## Turns -/

theorem policy_late (n : AtomNode) (id : String) (request : Request) :
    (n.policy.late id request).isSome = true := n.resolve_probe ..

theorem sweep_turn {m : AtomNode} (hreaders : m.readers = n.readers) (tail : List AtomOutput)
    (htail : (tail.map reply).all Reply.isOther = true) :
    Desk.Turn m.policy n.policy m.answerAllHeld.1.policy n.readers.desk .wake
      ((m.answerAllHeld.2 ++ tail).map reply) m.answerAllHeld.1.readers.desk := by
  rw [← hreaders]
  exact Streams.sweep_turn n.policy m.answer_name m.policy_late tail htail

theorem handle_turn (h : n.readers.Wf) (hsound : n.readers.desk.Sound)
    (hsettled : n.readers.desk.Settled n.policy) (input : AtomInput) :
    Desk.Turn (n.handle input).1.policy n.policy (n.handle input).1.policy n.readers.desk
      input.ask ((n.handle input).2.map reply) (n.handle input).1.readers.desk := by
  have hspec := n.handle_spec input
  generalize n.handle input = result at hspec ⊢
  cases hspec with
  | refused payload hterminal => exact hsettled.idle_turn n.policy_late rfl
  | replace payload hopen =>
      have hturn := sweep_turn (n := n) (m := { n with
        version := n.version + 1, payload := some payload }) rfl [] rfl
      rw [List.append_nil] at hturn
      exact hturn
  | again hinput hterminal =>
      have hask : input.ask = .wake := by
        rcases hinput with rfl | ⟨error, rfl⟩ <;> rfl
      rw [hask]
      exact hsettled.idle_turn n.policy_late rfl
  | «seal» hopen =>
      have hturn := sweep_turn (n := n) (m := { n with isSealed := true }) rfl [] rfl
      rw [List.append_nil] at hturn
      exact hturn
  | close error stop hopen =>
      exact sweep_turn (n := n) (m := { n with isClosed := true, closeError := error }) rfl
        [.producerStop stop] rfl
  | read streamId request =>
      obtain ⟨hmoves, hreplied⟩ := Streams.read_turn (δ := AtomDiagnostic) n.probe
        Request.timeoutMs h streamId request (n.answer_name streamId request)
      exact Desk.turn_of_serve hmoves hreplied ⟨rfl, fun _ => rfl⟩ n.policy_late
  | endStream streamId =>
      obtain ⟨hmoves, tail, htail, hreplied⟩ := Streams.endStream_turn (α := AtomReadResponse)
        (δ := AtomDiagnostic) AtomReadResponse.streamId h n.stopWhen streamId
      exact Desk.turn_of_moves hmoves ⟨tail, htail, hreplied⟩ n.policy_late
  | timerExpired token =>
      obtain ⟨hmoves, hreplied⟩ := Streams.timerExpired_turn (δ := AtomDiagnostic)
        n.answer Request.timeoutMs h hsound n.probe_name token
      exact Desk.turn_of_serve hmoves hreplied rfl n.policy_late

theorem handle_wf (h : n.readers.Wf) (input : AtomInput) : (n.handle input).1.readers.Wf := by
  have hspec := n.handle_spec input
  generalize n.handle input = result at hspec ⊢
  cases hspec with
  | refused payload hterminal => exact h
  | replace payload hopen => exact h.answerAllHeld
  | again hinput hterminal => exact h
  | «seal» hopen => exact h.answerAllHeld
  | close error stop hopen => exact h.answerAllHeld
  | read streamId request => exact h.read streamId request
  | endStream streamId => exact h.endStream n.stopWhen streamId
  | timerExpired token => exact h.timerExpired token

end AtomNode

theorem serves : Desk.Serves AtomNode.handle (fun n => n.readers.desk) AtomNode.policy
    AtomInput.ask reply (fun _ => false) (fun n => n.readers.Wf) :=
  ⟨fun _ input h _ _ => AtomNode.handle_wf h input,
    fun _ input h hsound hsettled => ⟨_, rfl, AtomNode.handle_turn h hsound hsettled input⟩⟩

def exchange (stopWhen : StopWhen) (inputs : List AtomInput) :
    List (Ask String Request × List (Reply String AtomReadResponse)) :=
  Desk.exchange AtomNode.handle AtomInput.ask reply (AtomNode.new stopWhen) inputs

theorem run_concat (stopWhen : StopWhen) (front : List AtomInput) (input : AtomInput) :
    run stopWhen (front ++ [input]) = ((run stopWhen front).handle input).1 :=
  after_concat _ _ _ _

/-- Every run is accounted for, and no read is held that could be answered. -/
theorem run_stands (stopWhen : StopWhen) (inputs : List AtomInput) :
    Desk.Stands (fun n : AtomNode => n.readers.desk) AtomNode.policy (fun _ => false)
      (fun n => n.readers.Wf) (exchange stopWhen inputs) (run stopWhen inputs) :=
  serves.run Streams.desk_new Streams.wf_new inputs

/-! ## Replacements -/

def AtomInput.payload? : AtomInput → Option Bytes
  | .replace payload => some payload
  | _ => none

def AtomInput.ends : AtomInput → Bool
  | .seal => true
  | .close _ => true
  | _ => false

/-- The payloads that a run takes: those that come before it is sealed or closed. -/
def accepted (inputs : List AtomInput) : List Bytes :=
  intake AtomInput.payload? AtomInput.ends inputs

theorem accepted_concat (front : List AtomInput) (input : AtomInput) :
    accepted (front ++ [input]) = accepted front ++
      if front.any AtomInput.ends then [] else input.payload?.toList := by
  apply intake_concat
  intro i hi
  cases i <;> simp_all [AtomInput.ends, AtomInput.payload?]

structure AtomNode.Replaced (n : AtomNode) (input : AtomInput) (m : AtomNode) : Prop where
  version : m.version = n.version +
    (if n.isSealed || n.isClosed then [] else input.payload?.toList).length
  payload : m.payload =
    (if n.isSealed || n.isClosed then [] else input.payload?.toList).getLast?.or n.payload
  terminal : (m.isSealed || m.isClosed) = (n.isSealed || n.isClosed || input.ends)

theorem AtomNode.handle_replaced (n : AtomNode) (input : AtomInput) :
    n.Replaced input (n.handle input).1 := by
  have hspec := n.handle_spec input
  generalize n.handle input = result at hspec ⊢
  cases hspec with
  | refused payload hterminal =>
      refine ⟨?_, ?_, ?_⟩ <;> rw [hterminal] <;> simp
  | replace payload hopen =>
      refine ⟨?_, ?_, ?_⟩ <;> rw [hopen] <;> simp [answerAllHeld, AtomInput.payload?,
        AtomInput.ends, hopen]
  | again hinput hterminal =>
      refine ⟨?_, ?_, ?_⟩ <;> rw [hterminal] <;> simp
  | «seal» hopen =>
      refine ⟨?_, ?_, ?_⟩ <;> simp [answerAllHeld, AtomInput.payload?, AtomInput.ends]
  | close error stop hopen =>
      refine ⟨?_, ?_, ?_⟩ <;> simp [answerAllHeld, AtomInput.payload?, AtomInput.ends]
  | read id request =>
      refine ⟨?_, ?_, ?_⟩ <;> simp [read, AtomInput.payload?, AtomInput.ends]
  | endStream id =>
      refine ⟨?_, ?_, ?_⟩ <;> simp [endStream, AtomInput.payload?, AtomInput.ends]
  | timerExpired token =>
      refine ⟨?_, ?_, ?_⟩ <;> simp [timerExpired, AtomInput.payload?, AtomInput.ends]

/-- The version counts the replacements, and the payload is the last of them. -/
theorem run_replaced (stopWhen : StopWhen) (inputs : List AtomInput) :
    let n := run stopWhen inputs
    n.version = (accepted inputs).length ∧ n.payload = (accepted inputs).getLast? ∧
      (n.isSealed || n.isClosed) = inputs.any AtomInput.ends := by
  induction inputs using List.reverseRecOn with
  | nil => exact ⟨rfl, rfl, rfl⟩
  | append_singleton front input ih =>
      obtain ⟨hversion, hpayload, hterminal⟩ := ih
      obtain ⟨hversion', hpayload', hterminal'⟩ := (run stopWhen front).handle_replaced input
      rw [hterminal] at hversion' hpayload' hterminal'
      rw [run_concat, accepted_concat]
      refine ⟨?_, ?_, ?_⟩
      · rw [hversion', hversion, List.length_append, Nat.cast_add]
      · rw [hpayload', hpayload, List.getLast?_append]
      · rw [hterminal', List.any_append]
        simp

end TautShape.Atom
