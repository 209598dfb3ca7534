import TautShape.Atom.Protocol
import TautShape.Held.Checked
/-!
# Where the engine could panic

The engine with its two `expect`s made explicit.  `resolve` unwraps the payload wherever
the reader's version is below the node's, and a client may send a version below zero:
before the first replacement there is no payload then.  That is the only panic there is.
-/

namespace TautShape.Atom

open TautShape.Lib TautShape.Held
open TautShape.Log (Bytes StopWhen)

inductive Panic where
  | expect (message : String)
deriving DecidableEq, Repr

namespace AtomNode

def resolveChecked (n : AtomNode) (atomId streamId : String) (version : Int)
    (timeoutMs : Option Int) : Except Panic (Option AtomReadResponse) :=
  if version < n.version then
    match n.payload with
    | some payload =>
        .ok (some ⟨atomId, streamId, some ⟨n.version, payload⟩, ⟨n.version⟩, .data, none⟩)
    | none => .error (.expect "atom version advanced without payload")
  else
    let state : Option AtomState :=
      if n.isClosed then some (if n.closeError.isSome then .failed else .closed)
      else if n.isSealed then some .eof
      else if timeoutMs = some 0 then some .wouldBlock
      else none
    .ok (state.map fun state =>
      ⟨atomId, streamId, none, ⟨n.version⟩, state,
        if state = .failed then n.closeError else none⟩)

def answerChecked (n : AtomNode) (streamId : String) (request : Request) :
    Except Panic (Option AtomReadResponse) :=
  n.resolveChecked request.atomId streamId request.known request.timeoutMs

def probeChecked (n : AtomNode) (streamId : String) (request : Request) :
    Except Panic AtomReadResponse := do
  match ← n.resolveChecked request.atomId streamId request.known (some 0) with
  | some response => return response
  | none => .error (.expect "atom probe unexpectedly held")

def answerAllHeldChecked (n : AtomNode) : Except Panic (AtomNode × List AtomOutput) := do
  let (readers, out) ← n.readers.answerAllHeldChecked n.answerChecked
  return ({ n with readers := readers }, out)

def replaceChecked (n : AtomNode) (payload : Bytes) : Except Panic (AtomNode × List AtomOutput) :=
  if n.isSealed || n.isClosed then return (n, [.diagnostic ⟨.warn, .replaceAfterTerminal⟩])
  else
    { n with version := n.version + 1, payload := some payload : AtomNode }.answerAllHeldChecked

def sealChecked (n : AtomNode) : Except Panic (AtomNode × List AtomOutput) :=
  if n.isSealed then return (n, [])
  else { n with isSealed := true : AtomNode }.answerAllHeldChecked

def closeChecked (n : AtomNode) (error : Option AtomError) :
    Except Panic (AtomNode × List AtomOutput) :=
  if n.isClosed then return (n, [])
  else do
    let (n, out) ←
      { n with isClosed := true, closeError := error : AtomNode }.answerAllHeldChecked
    return (n, out ++ [.producerStop (if n.closeError.isSome then .failed else .closed)])

def readChecked (n : AtomNode) (streamId : String) (request : Request) :
    Except Panic (AtomNode × List AtomOutput) := do
  let (readers, out) ← n.readers.readChecked n.answerChecked Request.timeoutMs streamId request
  return ({ n with readers := readers }, out)

def timerExpiredChecked (n : AtomNode) (token : Int) :
    Except Panic (AtomNode × List AtomOutput) := do
  let (readers, out) ← n.readers.timerExpiredChecked n.probeChecked token
  return ({ n with readers := readers }, out)

def handleChecked (n : AtomNode) : AtomInput → Except Panic (AtomNode × List AtomOutput)
  | .replace payload => n.replaceChecked payload
  | .seal => n.sealChecked
  | .close error => n.closeChecked error
  | .read streamId request => n.readChecked streamId request
  | .endStream streamId => return n.endStream streamId
  | .timerExpired token => n.timerExpiredChecked token

variable {n m : AtomNode}

/-! ## One input -/

def Provides (n : AtomNode) (request : Request) : Prop :=
  n.payload.isSome = true ∨ n.version ≤ request.known

theorem answerChecked_eq {request : Request} (h : n.Provides request) (id : String) :
    n.answerChecked id request = .ok (n.answer id request) := by
  unfold answerChecked answer resolveChecked resolve
  split
  · rename_i hbehind
    obtain ⟨payload, hpayload⟩ := Option.isSome_iff_exists.mp (h.resolve_right (by omega))
    rw [hpayload]
    rfl
  · rfl

theorem answerChecked_error {request : Request} (h : ¬ n.Provides request) (id : String) :
    n.answerChecked id request = .error (.expect "atom version advanced without payload") := by
  have hbehind : request.known < n.version := by
    by_contra hknown
    exact h (.inr (by omega))
  have hnone : n.payload = none := by
    rw [← Option.not_isSome_iff_eq_none]
    exact fun hsome => h (.inl hsome)
  rw [answerChecked, resolveChecked, if_pos hbehind, hnone]

theorem probeChecked_eq {request : Request} (h : n.Provides request) (id : String) :
    (n.probeChecked id request).map some = .ok (n.probe id request) := by
  have hsame : n.Provides { request with timeoutMs := some 0 } := h
  have hanswer : n.resolveChecked request.atomId id request.known (some 0) =
      .ok (n.resolve request.atomId id request.known (some 0)) := answerChecked_eq hsame id
  have hsome := n.resolve_probe request.atomId id request.known
  rw [probeChecked, probe, hanswer]
  obtain ⟨r, hr⟩ := Option.isSome_iff_exists.mp hsome
  rw [hr]
  rfl

theorem answerAllHeldChecked_eq
    (h : ∀ id held, n.readers.heldOf id = some held → n.Provides held.request) :
    n.answerAllHeldChecked = .ok n.answerAllHeld := by
  have hsafe : Streams.Safe n.answerChecked n.answer n.readers :=
    fun id held hheld => answerChecked_eq (h id held hheld) id
  rw [answerAllHeldChecked, Streams.answerAllHeldChecked_eq hsafe]
  rfl

/-- Whoever waits has the node's version, so no held read needs a payload that is not there. -/
theorem provides_of_held (hsettled : n.readers.desk.Settled n.policy) {id : String}
    {held : HeldRead Request} (hheld : n.readers.heldOf id = some held) :
    n.version ≤ held.request.known := by
  have hkept : n.readers.desk.kept id = some held.kept := by simp [Streams.desk, hheld]
  exact known_of_held (hsettled id held.kept hkept)

theorem handleChecked_eq (hsettled : n.readers.desk.Settled n.policy) {input : AtomInput}
    (h : ∀ id request, input = .read id request → n.Provides request) :
    n.handleChecked input = .ok (n.handle input) := by
  have hheld : ∀ id held, n.readers.heldOf id = some held → n.version ≤ held.request.known :=
    fun _ _ => provides_of_held hsettled
  cases input with
  | replace payload =>
      rw [handleChecked, replaceChecked, handle, AtomNode.replace]
      split
      · rfl
      · exact answerAllHeldChecked_eq fun _ _ _ => .inl rfl
  | «seal» =>
      rw [handleChecked, sealChecked, handle, AtomNode.seal]
      split
      · rfl
      · exact answerAllHeldChecked_eq fun id held hid => .inr (hheld id held hid)
  | close error =>
      rw [handleChecked, closeChecked, handle, AtomNode.close]
      split
      · rfl
      · have hsweep := answerAllHeldChecked_eq (n := { n with
          isClosed := true, closeError := error }) fun id held hid => .inr (hheld id held hid)
        rw [hsweep]
        rfl
  | read id request =>
      have hanswer := answerChecked_eq (h id request rfl) id
      rw [handleChecked, readChecked, Streams.readChecked_eq hanswer]
      rfl
  | endStream id => rfl
  | timerExpired token =>
      rw [handleChecked, timerExpiredChecked,
        Streams.timerExpiredChecked_eq (fun id held hid => probeChecked_eq
          (.inr (hheld id held hid)) id) token]
      rfl

theorem handleChecked_error {id : String} {request : Request} (h : ¬ n.Provides request) :
    n.handleChecked (.read id request) =
      .error (.expect "atom version advanced without payload") := by
  rw [handleChecked, readChecked, Streams.readChecked_error (answerChecked_error h id)]
  rfl

end AtomNode

/-! ## Whole runs -/

/-- The state and the outputs of a fresh node after a list of inputs, unless it panics. -/
def runChecked (stopWhen : StopWhen) (inputs : List AtomInput) :
    Except Panic (AtomNode × List (List AtomOutput)) :=
  Lib.runChecked AtomNode.handleChecked (AtomNode.new stopWhen) inputs

/-- No read of a version below zero comes before the first replacement that is taken. -/
def Guarded (inputs : List AtomInput) : Prop :=
  ∀ front streamId request, front ++ [.read streamId request] <+: inputs →
    accepted front = [] → 0 ≤ request.known

theorem guarded_concat (front : List AtomInput) (input : AtomInput) :
    Guarded (front ++ [input]) ↔ Guarded front ∧
      ∀ streamId request, input = .read streamId request → accepted front = [] →
        0 ≤ request.known := by
  constructor
  · intro h
    constructor
    · intro before streamId request hfirst
      exact h before streamId request (hfirst.trans (List.prefix_append front [input]))
    · intro streamId request hinput
      exact h front streamId request (hinput ▸ List.prefix_rfl)
  · intro h before streamId request hfirst
    rcases List.prefix_concat_iff.mp hfirst with heq | hinside
    · obtain ⟨rfl, hlast⟩ := List.append_inj' heq rfl
      exact h.2 streamId request (List.singleton_inj.mp hlast).symm
    · exact h.1 before streamId request hinside

theorem provides_iff (stopWhen : StopWhen) (inputs : List AtomInput) (request : Request) :
    (run stopWhen inputs).Provides request ↔ (accepted inputs = [] → 0 ≤ request.known) := by
  obtain ⟨hversion, hpayload, -⟩ := run_replaced stopWhen inputs
  rw [AtomNode.Provides, hversion, hpayload]
  cases haccepted : accepted inputs with
  | nil => simp
  | cons payload rest => simp [List.getLast?_cons]

/-- A run panics at the first read that is not guarded, and only there. -/
theorem runChecked_eq (stopWhen : StopWhen) (inputs : List AtomInput) :
    (Guarded inputs → runChecked stopWhen inputs = .ok (run stopWhen inputs,
        outputs AtomNode.handle (AtomNode.new stopWhen) inputs)) ∧
      (¬ Guarded inputs → runChecked stopWhen inputs =
        .error (.expect "atom version advanced without payload")) := by
  induction inputs using List.reverseRecOn with
  | nil => exact ⟨fun _ => rfl, fun h => absurd (fun front _ _ hfirst => by simp at hfirst) h⟩
  | append_singleton front input ih =>
      rw [guarded_concat]
      constructor
      · intro h
        have hsettled := (run_stands stopWhen front).settled
        have hstep : (run stopWhen front).handleChecked input =
            .ok ((run stopWhen front).handle input) := by
          apply AtomNode.handleChecked_eq hsettled
          intro id request hinput
          rw [provides_iff]
          exact h.2 id request hinput
        rw [runChecked, runChecked_concat (ih.1 h.1), hstep, run_concat, outputs_append]
        rfl
      · intro h
        by_cases hfront : Guarded front
        · -- the run so far went through, so it is this read
          obtain ⟨id, request, rfl, hnot⟩ : ∃ id request, input = .read id request ∧
              ¬ (accepted front = [] → 0 ≤ request.known) := by
            by_contra hnone
            refine h ⟨hfront, fun id request hinput => ?_⟩
            by_contra hbad
            exact hnone ⟨id, request, hinput, hbad⟩
          rw [← provides_iff stopWhen front] at hnot
          rw [runChecked, runChecked_concat (ih.1 hfront), AtomNode.handleChecked_error hnot]
          rfl
        · exact runChecked_append_error (ih.2 hfront) [input]

/-- **Panics of the atom engine.**  A run goes through exactly if no read of a version
below zero comes before the first replacement, and it then does what the plain engine
does.  Otherwise it is the missing payload that is unwrapped; no probe is ever held. -/
theorem handle_total_iff (stopWhen : StopWhen) (inputs : List AtomInput) :
    ((∃ result, runChecked stopWhen inputs = .ok result) ↔ Guarded inputs) ∧
      (∀ result, runChecked stopWhen inputs = .ok result → result = (run stopWhen inputs,
        outputs AtomNode.handle (AtomNode.new stopWhen) inputs)) ∧
      ∀ panic, runChecked stopWhen inputs = .error panic →
        panic = .expect "atom version advanced without payload" := by
  obtain ⟨hgood, hbad⟩ := runChecked_eq stopWhen inputs
  by_cases h : Guarded inputs
  · rw [hgood h]
    refine ⟨iff_of_true ⟨_, rfl⟩ h, fun result hresult => (Except.ok.inj hresult).symm, ?_⟩
    intro panic hpanic
    simp at hpanic
  · rw [hbad h]
    refine ⟨iff_of_false (by simp) h, fun result hresult => by simp at hresult, ?_⟩
    exact fun panic hpanic => (Except.error.inj hpanic).symm

/-- A fresh node is asked for what comes after version -1. -/
theorem negative_version_panics :
    (run .lastReader []).handleChecked (.read "s" ⟨"a", some ⟨-1⟩, none⟩) =
        .error (.expect "atom version advanced without payload") ∧
      ¬ ∀ (stopWhen : StopWhen) (inputs : List AtomInput) (input : AtomInput),
        ∃ result, (run stopWhen inputs).handleChecked input = .ok result := by
  have hpanic : (run .lastReader []).handleChecked (.read "s" ⟨"a", some ⟨-1⟩, none⟩) =
      .error (.expect "atom version advanced without payload") := rfl
  refine ⟨hpanic, fun htotal => ?_⟩
  obtain ⟨result, hresult⟩ := htotal .lastReader [] (.read "s" ⟨"a", some ⟨-1⟩, none⟩)
  rw [hpanic] at hresult
  simp at hresult

end TautShape.Atom
