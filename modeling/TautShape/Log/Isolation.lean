import TautShape.Log.Wakeup
import TautShape.Lib.Renumber
/-!
# Stream isolation

A run and the run with one stream erased.  Without the reads and ends of that stream
and without the expiries of its timers the engine does the same for everyone else,
with timer tokens renumbered past the ones it no longer hands out.  `Mirrors` is the
simulation between the two runs.
-/

namespace TautShape.Log

open TautShape.Lib

/-! ## Erasing a stream -/

def Input.renumber (gone : List TimerToken) : Input → Input
  | .timerExpired token => .timerExpired (Lib.renumber gone token)
  | input => input

def Output.renumber (gone : List TimerToken) : Output → Output
  | .setTimer token ms => .setTimer (Lib.renumber gone token) ms
  | .cancelTimer token => .cancelTimer (Lib.renumber gone token)
  | output => output

def HeldRead.renumber (gone : List TimerToken) (held : HeldRead) : HeldRead :=
  { held with timer := held.timer.map (Lib.renumber gone) }

/-- The reads and ends of a stream, and the expiries of the tokens issued to it. -/
def Input.ofStream (id : StreamId) (gone : List TimerToken) : Input → Bool
  | .read id' _ _ _ => id' = id
  | .endStream id' => id' = id
  | .timerExpired token => token ∈ gone
  | .push _ | .seal | .close _ | .evict _ => false

def Output.lastReader : Output → Bool
  | .producerStop reason => reason = .lastReaderGone
  | _ => false

/-- The responses and timers of the other streams, and what the producer is told about
its own inputs. -/
def Output.ofOthers (id : StreamId) (gone : List TimerToken) : Output → Bool
  | .response r => r.streamId ≠ id
  | .setTimer token _ => token ∉ gone
  | .cancelTimer token => token ∉ gone
  | .producerStop reason => reason ≠ .lastReaderGone
  | .diagnostic _ => true

def armed (out : List Output) : List TimerToken :=
  out.filterMap fun
    | .setTimer token _ => some token
    | _ => none

def armedBy (id : StreamId) (input : Input) (out : List Output) : List TimerToken :=
  match input with
  | .read id' _ _ _ => if id' = id then armed out else []
  | _ => []

def issuedFrom (n : LogNode) (inputs : List Input) (id : StreamId) : List TimerToken :=
  (trace LogNode.handle n inputs).flatMap fun p => armedBy id p.1 p.2

def issuedTo (config : Config) (inputs : List Input) (id : StreamId) : List TimerToken :=
  issuedFrom (LogNode.new config) inputs id

def erase (id : StreamId) (gone : List TimerToken) (inputs : List Input) : List Input :=
  (inputs.filter fun input => !input.ofStream id gone).map (Input.renumber gone)

/-! ## Whose output it is -/

/-- An output of one stream, with timers among its own. -/
def Output.Of (id : StreamId) (own : TimerToken → Prop) : Output → Prop
  | .response r => r.streamId = id
  | .setTimer token _ => own token
  | .cancelTimer token => own token
  | .producerStop _ | .diagnostic _ => False

theorem Output.Of.mono {id : StreamId} {own own' : TimerToken → Prop} {o : Output}
    (h : o.Of id own) (hown : ∀ token, own token → own' token) : o.Of id own' := by
  cases o with
  | response r => exact h
  | setTimer token ms => exact hown token h
  | cancelTimer token => exact hown token h
  | producerStop reason => exact h
  | diagnostic d => exact h

theorem Output.Of.ofOthers {id reader : StreamId} {own : TimerToken → Prop}
    {gone : List TimerToken} {o : Output} (h : o.Of reader own)
    (hown : ∀ token, own token → (token ∈ gone ↔ reader = id)) :
    o.ofOthers id gone = decide (reader ≠ id) := by
  cases o with
  | response r =>
      obtain rfl : r.streamId = reader := h
      rfl
  | setTimer token ms => simp only [Output.ofOthers, hown token h]
  | cancelTimer token => simp only [Output.ofOthers, hown token h]
  | producerStop reason => exact False.elim h
  | diagnostic d => exact False.elim h

theorem Output.Of.not_lastReader {id : StreamId} {own : TimerToken → Prop} {o : Output}
    (h : o.Of id own) : o.lastReader = false := by
  cases o with
  | producerStop reason => exact False.elim h
  | response r => rfl
  | setTimer token ms => rfl
  | cancelTimer token => rfl
  | diagnostic d => rfl

@[simp] theorem lastReader_renumber (gone : List TimerToken) (o : Output) :
    (o.renumber gone).lastReader = o.lastReader := by
  cases o <;> rfl

section

variable {id reader : StreamId} {own : TimerToken → Prop} {gone : List TimerToken}
  {out : List Output}

theorem filter_ofOthers_self (hout : ∀ o ∈ out, o.Of id own)
    (hown : ∀ token, own token → token ∈ gone) : out.filter (Output.ofOthers id gone) = [] := by
  rw [List.filter_eq_nil_iff]
  intro o ho
  rw [(hout o ho).ofOthers fun token htoken => iff_of_true (hown token htoken) rfl]
  simp

theorem filter_ofOthers_other (hne : reader ≠ id) (hout : ∀ o ∈ out, o.Of reader own)
    (hown : ∀ token, own token → token ∉ gone) :
    out.filter (Output.ofOthers id gone) = out := by
  rw [List.filter_eq_self]
  intro o ho
  rw [(hout o ho).ofOthers fun token htoken => iff_of_false (hown token htoken) hne]
  simpa using hne

end

namespace LogNode

def Holding (n : LogNode) (id : StreamId) (token : TimerToken) : Prop :=
  ∃ held, n.sessions.heldOf id = some held ∧ held.timer = some token

theorem cancelTimer_of (n : LogNode) (id : StreamId) :
    ∀ o ∈ cancelTimer ((n.sessions.heldOf id).bind HeldRead.timer), o.Of id (n.Holding id) := by
  intro o ho
  cases hheld : n.sessions.heldOf id with
  | none => simp [hheld, cancelTimer] at ho
  | some held =>
      rw [hheld, Option.bind_some] at ho
      cases htimer : held.timer with
      | none => simp [htimer, cancelTimer] at ho
      | some token =>
          obtain rfl : o = .cancelTimer token := by simpa [htimer, cancelTimer] using ho
          exact ⟨held, hheld, htimer⟩

theorem receive_of (n : LogNode) (id : StreamId) (r : Request) :
    ∀ o ∈ (n.receive id r).out,
      o.Of id fun token => token = n.nextTimer + 1 ∧ (n.receive id r).nextTimer = token := by
  intro o ho
  have hspec := n.receive_spec id r
  generalize n.receive id r = reception at hspec ho ⊢
  cases hspec with
  | answered response hanswer =>
      obtain rfl := List.mem_singleton.mp ho
      exact Answers.stream (r := r) (.inl hanswer)
  | probed hnone =>
      obtain rfl := List.mem_singleton.mp ho
      rfl
  | held hnone => simp at ho
  | timed hnone ms =>
      obtain rfl := List.mem_singleton.mp ho
      exact ⟨rfl, rfl⟩

theorem release_of (n : LogNode) (id : StreamId) (held : Option HeldRead) :
    ∀ o ∈ (n.release id held).2,
      o.Of id fun token => ∃ h, held = some h ∧ h.timer = some token := by
  intro o ho
  cases held with
  | none => simp [release] at ho
  | some held =>
      rw [release] at ho
      split at ho
      · rename_i response hanswer
        rcases List.mem_append.mp ho with ho | ho
        · cases htimer : held.timer with
          | none => simp [htimer, cancelTimer] at ho
          | some token =>
              obtain rfl : o = .cancelTimer token := by simpa [htimer, cancelTimer] using ho
              exact ⟨held, rfl, htimer⟩
        · obtain rfl := List.mem_singleton.mp ho
          exact Answers.stream (r := ⟨some held.cursor, held.limits, none⟩) (.inl hanswer)
      · simp at ho

theorem receive_nextTimer (n : LogNode) (id : StreamId) (r : Request) :
    (n.receive id r).nextTimer = n.nextTimer ∨ (n.receive id r).nextTimer = n.nextTimer + 1 := by
  have hspec := n.receive_spec id r
  generalize n.receive id r = reception at hspec ⊢
  cases hspec with
  | answered response hanswer => exact .inl rfl
  | probed hnone => exact .inl rfl
  | held hnone => exact .inl rfl
  | timed hnone ms => exact .inr rfl

theorem receive_timer {n : LogNode} {id : StreamId} {r : Request} {held : HeldRead}
    {token : TimerToken} (hheld : (n.receive id r).held = some held)
    (htimer : held.timer = some token) :
    token = n.nextTimer + 1 ∧ (n.receive id r).nextTimer = token := by
  have hspec := n.receive_spec id r
  generalize n.receive id r = reception at hspec hheld ⊢
  cases hspec with
  | answered response hanswer => simp at hheld
  | probed hnone => simp at hheld
  | held hnone =>
      obtain rfl := Option.some.inj hheld
      simp at htimer
  | timed hnone ms =>
      obtain rfl := Option.some.inj hheld
      obtain rfl := Option.some.inj htimer
      exact ⟨rfl, rfl⟩

/-! ## Renumbering one step -/

theorem cancelTimer_renumber (gone : List TimerToken) (held : Option HeldRead) :
    cancelTimer ((held.map (HeldRead.renumber gone)).bind HeldRead.timer) =
      (cancelTimer (held.bind HeldRead.timer)).map (Output.renumber gone) := by
  cases held with
  | none => rfl
  | some held =>
      rw [Option.map_some, Option.bind_some, Option.bind_some, HeldRead.renumber]
      cases held.timer <;> rfl

theorem receive_renumber {n m : LogNode} {gone : List TimerToken} (hwindow : m.window = n.window)
    (hcounter : m.nextTimer = Lib.renumber gone n.nextTimer) {id : StreamId} {r : Request}
    (hkept : (n.receive id r).nextTimer = n.nextTimer + 1 → n.nextTimer + 1 ∉ gone) :
    (m.receive id r).held = (n.receive id r).held.map (HeldRead.renumber gone) ∧
      (m.receive id r).nextTimer = Lib.renumber gone (n.receive id r).nextTimer ∧
      (m.receive id r).out = (n.receive id r).out.map (Output.renumber gone) := by
  simp only [receive, answerOf_congr hwindow, hcounter] at hkept ⊢
  cases hanswer : n.answerOf id r.position r.limits with
  | some response => exact ⟨rfl, rfl, rfl⟩
  | none =>
      rw [hanswer] at hkept
      cases htimeout : r.timeoutMs with
      | none => exact ⟨rfl, rfl, rfl⟩
      | some ms =>
          cases ms with
          | zero => exact ⟨rfl, rfl, rfl⟩
          | succ ms =>
              rw [htimeout] at hkept
              have hnext := renumber_succ_of_not_mem (hkept rfl)
              simp [HeldRead.renumber, Output.renumber, hnext]

theorem release_renumber {n m : LogNode} (hwindow : m.window = n.window)
    (gone : List TimerToken) (id : StreamId) (held : Option HeldRead) :
    m.release id (held.map (HeldRead.renumber gone)) =
      ((n.release id held).1.map (HeldRead.renumber gone),
        (n.release id held).2.map (Output.renumber gone)) := by
  rw [release_congr hwindow]
  cases held with
  | none => rfl
  | some held =>
      have hcancel := cancelTimer_renumber gone (some held)
      simp only [Option.map_some, Option.bind_some] at hcancel
      have hanswer : n.answerOf id (held.renumber gone).cursor (held.renumber gone).limits =
          n.answerOf id held.cursor held.limits := rfl
      rw [Option.map_some, release, release, hanswer]
      cases n.answerOf id held.cursor held.limits with
      | some response => simp [hcancel, Output.renumber]
      | none => rfl

theorem woken_renumber {n m : LogNode} (hwindow : m.window = n.window) (input : Input) :
    m.woken input = (n.woken input).map fun w => { m with window := w.window } := by
  cases input with
  | push payload =>
      simp only [woken, hwindow]
      split <;> rfl
  | «seal» => simp only [woken, hwindow, Option.map_some]
  | close error =>
      simp only [woken, hwindow]
      split <;> rfl
  | read _ _ _ _ => rfl
  | endStream _ => rfl
  | timerExpired _ => rfl
  | evict _ => rfl

theorem release_fst {n : LogNode} {id : StreamId} {held : Option HeldRead} {kept : HeldRead}
    (h : (n.release id held).1 = some kept) : held = some kept := by
  cases held with
  | none => simp [release] at h
  | some held =>
      rw [release] at h
      split at h
      · simp at h
      · exact h

end LogNode

/-! ## The simulation -/

/-- The run `m` without the stream `id` against the run `n` with it. -/
structure Mirrors (id : StreamId) (gone : List TimerToken) (n m : LogNode) : Prop where
  window : m.window = n.window
  nextTimer : m.nextTimer = Lib.renumber gone n.nextTimer
  heldOf : ∀ id', m.sessions.heldOf id' = if id' = id then none else
    (n.sessions.heldOf id').map (HeldRead.renumber gone)
  own : ∀ id' token, n.Holding id' token → (token ∈ gone ↔ id' = id)

/-- The outputs without the stream are those of the others with it, renumbered. -/
def Echoes (id : StreamId) (gone : List TimerToken) (out out' : List Output) : Prop :=
  out'.filter (fun o => !o.lastReader) =
    (out.filter (Output.ofOthers id gone)).map (Output.renumber gone)

namespace Mirrors

variable {id : StreamId} {gone : List TimerToken} {n m : LogNode}

theorem heldOf_other (h : Mirrors id gone n m) {reader : StreamId} (hne : reader ≠ id) :
    m.sessions.heldOf reader = (n.sessions.heldOf reader).map (HeldRead.renumber gone) := by
  rw [h.heldOf, if_neg hne]

theorem echoes {reader : StreamId} (hne : reader ≠ id) {own : TimerToken → Prop}
    {out : List Output} (hout : ∀ o ∈ out, o.Of reader own)
    (hown : ∀ token, own token → token ∉ gone) :
    Echoes id gone out (out.map (Output.renumber gone)) := by
  rw [Echoes, filter_ofOthers_other hne hout hown, List.filter_map]
  congr 1
  rw [List.filter_eq_self]
  intro o ho
  simp [(hout o ho).not_lastReader]

theorem read_tokens (h : Mirrors id gone n m) {reader : StreamId} {r : Request}
    (hfresh : (n.receive reader r).nextTimer = n.nextTimer + 1 →
      (n.nextTimer + 1 ∈ gone ↔ reader = id)) :
    ∀ o ∈ (n.onRead reader r.cursor r.limits r.timeoutMs).2,
      o.Of reader fun token => token ∈ gone ↔ reader = id := by
  intro o ho
  rw [(n.onRead_receives reader r).emits] at ho
  rcases List.mem_append.mp ho with ho | ho
  · exact (n.cancelTimer_of reader o ho).mono fun token htoken => h.own reader token htoken
  · refine (n.receive_of reader r o ho).mono fun token htoken => ?_
    obtain ⟨rfl, hnext⟩ := htoken
    exact hfresh hnext

theorem read_own (h : Mirrors id gone n m) {reader : StreamId} {r : Request}
    (hfresh : (n.receive reader r).nextTimer = n.nextTimer + 1 →
      (n.nextTimer + 1 ∈ gone ↔ reader = id)) (id' : StreamId) (token : TimerToken)
    (hholding : (n.onRead reader r.cursor r.limits r.timeoutMs).1.Holding id' token) :
    token ∈ gone ↔ id' = id := by
  obtain ⟨held, hheld, htimer⟩ := hholding
  rw [(n.onRead_receives reader r).heldOf] at hheld
  split at hheld
  · rename_i heq
    obtain ⟨rfl, hnext⟩ := LogNode.receive_timer hheld htimer
    exact heq ▸ hfresh hnext
  · exact h.own id' token ⟨held, hheld, htimer⟩

theorem read_self (h : Mirrors id gone n m) (r : Request)
    (hfresh : (n.receive id r).nextTimer = n.nextTimer + 1 → (n.nextTimer + 1 ∈ gone ↔ id = id)) :
    Mirrors id gone (n.onRead id r.cursor r.limits r.timeoutMs).1 m ∧
      (n.onRead id r.cursor r.limits r.timeoutMs).2.filter (Output.ofOthers id gone) = [] := by
  have hreceives := n.onRead_receives id r
  refine ⟨⟨h.window.trans hreceives.window.symm, ?_, fun id' => ?_, h.read_own hfresh⟩,
    filter_ofOthers_self (h.read_tokens hfresh) fun token htoken => htoken.mpr rfl⟩
  · rw [hreceives.nextTimer, h.nextTimer]
    rcases n.receive_nextTimer id r with hsame | hnext
    · rw [hsame]
    · rw [hnext, renumber_succ_of_mem ((hfresh hnext).mpr rfl)]
  · rw [h.heldOf, hreceives.heldOf]
    by_cases heq : id' = id
    · rw [if_pos heq, if_pos heq]
    · rw [if_neg heq, if_neg heq, if_neg (Ne.symm heq)]

theorem read_other (h : Mirrors id gone n m) {reader : StreamId} (hne : reader ≠ id)
    (r : Request) (hfresh : (n.receive reader r).nextTimer = n.nextTimer + 1 →
      (n.nextTimer + 1 ∈ gone ↔ reader = id)) :
    Mirrors id gone (n.onRead reader r.cursor r.limits r.timeoutMs).1
        (m.onRead reader r.cursor r.limits r.timeoutMs).1 ∧
      Echoes id gone (n.onRead reader r.cursor r.limits r.timeoutMs).2
        (m.onRead reader r.cursor r.limits r.timeoutMs).2 := by
  have hreceives := n.onRead_receives reader r
  have hreceives' := m.onRead_receives reader r
  have hkept : (n.receive reader r).nextTimer = n.nextTimer + 1 → n.nextTimer + 1 ∉ gone :=
    fun hnext hmem => hne ((hfresh hnext).mp hmem)
  obtain ⟨hheld, hcounter, hout⟩ := LogNode.receive_renumber h.window h.nextTimer hkept
  constructor
  · constructor
    case window => rw [hreceives.window, hreceives'.window, h.window]
    case nextTimer => rw [hreceives.nextTimer, hreceives'.nextTimer, hcounter]
    case own => exact h.read_own hfresh
    case heldOf =>
      intro id'
      rw [hreceives.heldOf, hreceives'.heldOf, hheld, h.heldOf]
      by_cases heq : reader = id'
      · rw [if_pos heq, if_pos heq, if_neg (heq ▸ hne)]
      · rw [if_neg heq, if_neg heq]
  · have hrenumbered : (m.onRead reader r.cursor r.limits r.timeoutMs).2 =
        (n.onRead reader r.cursor r.limits r.timeoutMs).2.map (Output.renumber gone) := by
      rw [hreceives.emits, hreceives'.emits, hout, h.heldOf_other hne,
        LogNode.cancelTimer_renumber, List.map_append]
    rw [hrenumbered]
    exact echoes hne (h.read_tokens hfresh) fun token htoken hmem => hne (htoken.mp hmem)

theorem echoes_append {out₁ out₁' out₂ out₂' : List Output} (h₁ : Echoes id gone out₁ out₁')
    (h₂ : Echoes id gone out₂ out₂') : Echoes id gone (out₁ ++ out₂) (out₁' ++ out₂') := by
  rw [Echoes, List.filter_append, List.filter_append, h₁, h₂, List.map_append]

theorem echoes_flatMap {f g : StreamId → List Output}
    (hself : (f id).filter (Output.ofOthers id gone) = [])
    (hother : ∀ reader, reader ≠ id → Echoes id gone (f reader) (g reader))
    (order : List StreamId) :
    Echoes id gone (order.flatMap f) ((strike order id).flatMap g) := by
  induction order with
  | nil => rfl
  | cons reader rest ih =>
      by_cases heq : reader = id
      · subst heq
        rw [strike, List.filter_cons, if_neg (by simp), ← strike, List.flatMap_cons, Echoes,
          List.filter_append, hself, List.nil_append, ih]
      · rw [strike, List.filter_cons, if_pos (by simpa using heq), ← strike, List.flatMap_cons,
          List.flatMap_cons]
        exact echoes_append (hother reader heq) ih

theorem echoes_notice (input : Input) :
    Echoes id gone (LogNode.notice input) (LogNode.notice input) := by
  cases input with
  | close error => cases error <;> rfl
  | push _ => rfl
  | «seal» => rfl
  | read _ _ _ _ => rfl
  | endStream _ => rfl
  | timerExpired _ => rfl
  | evict _ => rfl

theorem wake (h : Mirrors id gone n m) (hn : n.sessions.Wf) (hm : m.sessions.Wf)
    {order : List StreamId} (hranked : n.sessions.Ranked order)
    (hranked' : m.sessions.Ranked (strike order id)) {w : LogNode} {input : Input}
    (hwoken : n.woken input = some w) :
    Mirrors id gone (n.handle input).1 (m.handle input).1 ∧
      Echoes id gone (n.handle input).2 (m.handle input).2 := by
  have hwoken' : m.woken input = some { m with window := w.window } := by
    rw [LogNode.woken_renumber h.window, hwoken, Option.map_some]
  obtain ⟨hsessions, hcounter⟩ := LogNode.woken_sessions hwoken
  have hframe := w.releaseHeld_frame
  have hframe' := ({ m with window := w.window }).releaseHeld_frame
  obtain ⟨hout, hheld⟩ := LogNode.releaseHeld_effect (hsessions ▸ hn) (hsessions ▸ hranked)
  obtain ⟨hout', hheld'⟩ :=
    LogNode.releaseHeld_effect (n := { m with window := w.window }) hm hranked'
  have hrelease := LogNode.release_renumber (n := w) (m := { m with window := w.window }) rfl gone
  rw [hsessions] at hout hheld
  rw [LogNode.handle_woken hwoken, LogNode.handle_woken hwoken']
  constructor
  · constructor
    case window => exact hframe'.1.trans hframe.1.symm
    case nextTimer =>
      rw [hframe'.2.1, hframe.2.1, hcounter]
      exact h.nextTimer
    case heldOf =>
      intro id'
      simp only [hheld, hheld', h.heldOf]
      by_cases heq : id' = id
      · rw [if_pos heq, if_pos heq, LogNode.release]
      · rw [if_neg heq, if_neg heq, hrelease]
    case own =>
      rintro id' token ⟨held, hsome, htimer⟩
      simp only [hheld] at hsome
      exact h.own id' token ⟨held, LogNode.release_fst hsome, htimer⟩
  · simp only [hout, hout']
    refine echoes_append (echoes_flatMap ?_ ?_ order) (echoes_notice input)
    · refine filter_ofOthers_self (w.release_of id _) fun token htoken => ?_
      exact (h.own id token htoken).mpr rfl
    · intro reader hne
      rw [h.heldOf_other hne, hrelease]
      refine echoes hne (w.release_of reader _) fun token htoken hmem => ?_
      exact hne ((h.own reader token htoken).mp hmem)

/-! ### Ends and expiries -/

theorem drop_own (h : Mirrors id gone n m) {n' : LogNode} {ended : StreamId}
    (hheld : ∀ id', n'.sessions.heldOf id' =
      if ended = id' then none else n.sessions.heldOf id') (id' : StreamId)
    (token : TimerToken) (hholding : n'.Holding id' token) : token ∈ gone ↔ id' = id := by
  obtain ⟨held, hsome, htimer⟩ := hholding
  rw [hheld] at hsome
  split at hsome
  · simp at hsome
  · exact h.own id' token ⟨held, hsome, htimer⟩

theorem drop_self (h : Mirrors id gone n m) {n' : LogNode} (hwindow : n'.window = n.window)
    (hcounter : n'.nextTimer = n.nextTimer)
    (hheld : ∀ id', n'.sessions.heldOf id' =
      if id = id' then none else n.sessions.heldOf id') : Mirrors id gone n' m := by
  constructor
  case window => rw [hwindow, h.window]
  case nextTimer => rw [hcounter, h.nextTimer]
  case own => exact h.drop_own hheld
  case heldOf =>
    intro id'
    rw [h.heldOf, hheld]
    by_cases heq : id' = id
    · rw [if_pos heq, if_pos heq]
    · rw [if_neg heq, if_neg heq, if_neg (Ne.symm heq)]

theorem drop_other (h : Mirrors id gone n m) {n' m' : LogNode} {ended : StreamId}
    (hne : ended ≠ id) (hwindow : n'.window = n.window) (hwindow' : m'.window = m.window)
    (hcounter : n'.nextTimer = n.nextTimer) (hcounter' : m'.nextTimer = m.nextTimer)
    (hheld : ∀ id', n'.sessions.heldOf id' =
      if ended = id' then none else n.sessions.heldOf id')
    (hheld' : ∀ id', m'.sessions.heldOf id' =
      if ended = id' then none else m.sessions.heldOf id') : Mirrors id gone n' m' := by
  constructor
  case window => rw [hwindow, hwindow', h.window]
  case nextTimer => rw [hcounter, hcounter', h.nextTimer]
  case own => exact h.drop_own hheld
  case heldOf =>
    intro id'
    rw [hheld, hheld', h.heldOf]
    by_cases heq : ended = id'
    · rw [if_pos heq, if_pos heq, if_neg (heq ▸ hne)]
      rfl
    · rw [if_neg heq, if_neg heq]

theorem filter_ofOthers_stop {stop : List Output}
    (hstop : ∀ o ∈ stop, o = .producerStop .lastReaderGone) :
    stop.filter (Output.ofOthers id gone) = [] := by
  rw [List.filter_eq_nil_iff]
  intro o ho
  rw [hstop o ho]
  simp [Output.ofOthers]

theorem filter_lastReader_stop {stop : List Output}
    (hstop : ∀ o ∈ stop, o = .producerStop .lastReaderGone) :
    stop.filter (fun o => !o.lastReader) = [] := by
  rw [List.filter_eq_nil_iff]
  intro o ho
  rw [hstop o ho]
  simp [Output.lastReader]

theorem endStream_self (h : Mirrors id gone n m) :
    Mirrors id gone (n.onEndStream id).1 m ∧
      (n.onEndStream id).2.filter (Output.ofOthers id gone) = [] := by
  obtain ⟨⟨stop, hout, hstop⟩, hheld, hcounter, -⟩ := n.onEndStream_effect id
  refine ⟨h.drop_self (n.onEndStream_window id) hcounter hheld, ?_⟩
  rw [hout, List.filter_append, filter_ofOthers_stop hstop, List.append_nil]
  refine filter_ofOthers_self (n.cancelTimer_of id) fun token htoken => ?_
  exact (h.own id token htoken).mpr rfl

theorem endStream_other (h : Mirrors id gone n m) {ended : StreamId} (hne : ended ≠ id) :
    Mirrors id gone (n.onEndStream ended).1 (m.onEndStream ended).1 ∧
      Echoes id gone (n.onEndStream ended).2 (m.onEndStream ended).2 := by
  obtain ⟨⟨stop, hout, hstop⟩, hheld, hcounter, -⟩ := n.onEndStream_effect ended
  obtain ⟨⟨stop', hout', hstop'⟩, hheld', hcounter', -⟩ := m.onEndStream_effect ended
  refine ⟨h.drop_other hne (n.onEndStream_window ended) (m.onEndStream_window ended) hcounter
    hcounter' hheld hheld', ?_⟩
  rw [hout, hout', h.heldOf_other hne, LogNode.cancelTimer_renumber]
  refine echoes_append (echoes hne (n.cancelTimer_of ended) fun token htoken hmem => ?_) ?_
  · exact hne ((h.own ended token htoken).mp hmem)
  · rw [Echoes, filter_ofOthers_stop hstop, filter_lastReader_stop hstop', List.map_nil]

theorem timerExpired_self (h : Mirrors id gone n m) (hn : n.sessions.Wf) {token : TimerToken}
    (hgone : token ∈ gone) :
    Mirrors id gone (n.onTimerExpired token).1 m ∧
      (n.onTimerExpired token).2.filter (Output.ofOthers id gone) = [] := by
  rcases LogNode.onTimerExpired_effect hn token with
    ⟨reader, held, hheld, htimer, hout, hstep⟩ | ⟨-, hstep⟩
  · obtain rfl : reader = id := (h.own reader token ⟨held, hheld, htimer⟩).mp hgone
    rw [hout, hstep]
    refine ⟨h.drop_self rfl rfl (n.sessions.heldOf_clearHeld reader), ?_⟩
    simp [Output.ofOthers]
  · rw [hstep]
    exact ⟨h, rfl⟩

theorem timerExpired_other (h : Mirrors id gone n m) (hn : n.sessions.Wf) (hm : m.sessions.Wf)
    {token : TimerToken} (hkept : token ∉ gone) :
    Mirrors id gone (n.onTimerExpired token).1
        (m.onTimerExpired (Lib.renumber gone token)).1 ∧
      Echoes id gone (n.onTimerExpired token).2
        (m.onTimerExpired (Lib.renumber gone token)).2 := by
  have hfinds : ∀ reader held, m.sessions.heldOf reader = some held →
      held.timer = some (Lib.renumber gone token) →
      ∃ held₀, n.sessions.heldOf reader = some held₀ ∧ held₀.timer = some token ∧
        held = held₀.renumber gone := by
    intro reader held hheld htimer
    have hne : reader ≠ id := by
      rintro rfl
      simp [h.heldOf] at hheld
    rw [h.heldOf_other hne, Option.map_eq_some_iff] at hheld
    obtain ⟨held₀, hheld₀, rfl⟩ := hheld
    obtain ⟨token₀, htimer₀, hsame⟩ := Option.map_eq_some_iff.mp htimer
    have hkept₀ : token₀ ∉ gone := fun hmem =>
      hne ((h.own reader token₀ ⟨held₀, hheld₀, htimer₀⟩).mp hmem)
    obtain rfl := renumber_inj hkept₀ hkept hsame
    exact ⟨held₀, hheld₀, htimer₀, rfl⟩
  rcases LogNode.onTimerExpired_effect hm (Lib.renumber gone token) with
    ⟨reader, held, hheld, htimer, hout', hstep'⟩ | ⟨hnone', hstep'⟩
  · obtain ⟨held₀, hheld₀, htimer₀, rfl⟩ := hfinds reader held hheld htimer
    have hne : reader ≠ id := fun heq =>
      hkept ((h.own reader token ⟨held₀, hheld₀, htimer₀⟩).mpr heq)
    rcases LogNode.onTimerExpired_effect hn token with
      ⟨reader₁, held₁, hheld₁, htimer₁, hout, hstep⟩ | ⟨hnone, -⟩
    · obtain rfl := hn.timer_inj hheld₀ hheld₁ htimer₀ htimer₁
      obtain rfl : held₀ = held₁ := Option.some.inj (hheld₀.symm.trans hheld₁)
      rw [hout, hout', hstep, hstep']
      refine ⟨h.drop_other hne rfl rfl rfl rfl (n.sessions.heldOf_clearHeld reader)
        (m.sessions.heldOf_clearHeld reader), ?_⟩
      simp [Echoes, Output.ofOthers, Output.lastReader, Output.renumber, HeldRead.renumber, hne]
    · exact absurd htimer₀ (hnone reader held₀ hheld₀)
  · rcases LogNode.onTimerExpired_effect hn token with
      ⟨reader, held, hheld, htimer, -, -⟩ | ⟨-, hstep⟩
    · have hne : reader ≠ id := fun heq =>
        hkept ((h.own reader token ⟨held, hheld, htimer⟩).mpr heq)
      refine absurd ?_ (hnone' reader (held.renumber gone) ?_)
      · rw [HeldRead.renumber, htimer, Option.map_some]
      · rw [h.heldOf_other hne, hheld, Option.map_some]
    · rw [hstep, hstep']
      exact ⟨h, rfl⟩

/-! ### One input -/

/-- What is said about the counter when an input reads: a new token is the erased
stream's exactly when it is that stream that reads. -/
def Issues (id : StreamId) (gone : List TimerToken) (n : LogNode) (input : Input) : Prop :=
  ∀ reader r, input = .read reader r.cursor r.limits r.timeoutMs →
    (n.receive reader r).nextTimer = n.nextTimer + 1 → (n.nextTimer + 1 ∈ gone ↔ reader = id)

/-- An erased input is heard by no one else. -/
theorem handle_self (h : Mirrors id gone n m) (hn : n.sessions.Wf) {input : Input}
    (hissues : Issues id gone n input) (hself : input.ofStream id gone = true) :
    Mirrors id gone (n.handle input).1 m ∧
      (n.handle input).2.filter (Output.ofOthers id gone) = [] := by
  cases input with
  | read reader cursor limits timeoutMs =>
      obtain rfl : reader = id := by simpa [Input.ofStream] using hself
      exact h.read_self ⟨cursor, limits, timeoutMs⟩ (hissues reader ⟨cursor, limits, timeoutMs⟩ rfl)
  | endStream ended =>
      obtain rfl : ended = id := by simpa [Input.ofStream] using hself
      exact h.endStream_self
  | timerExpired token =>
      exact h.timerExpired_self hn (by simpa [Input.ofStream] using hself)
  | push _ => simp [Input.ofStream] at hself
  | «seal» => simp [Input.ofStream] at hself
  | close _ => simp [Input.ofStream] at hself
  | evict _ => simp [Input.ofStream] at hself

theorem handle_other (h : Mirrors id gone n m) (hn : n.sessions.Wf) (hm : m.sessions.Wf)
    {order : List StreamId} (hranked : n.sessions.Ranked order)
    (hranked' : m.sessions.Ranked (strike order id)) {input : Input}
    (hissues : Issues id gone n input) (hother : input.ofStream id gone = false) :
    Mirrors id gone (n.handle input).1 (m.handle (input.renumber gone)).1 ∧
      Echoes id gone (n.handle input).2 (m.handle (input.renumber gone)).2 := by
  have hunwoken := LogNode.woken_renumber h.window input
  cases hwoken : n.woken input with
  | some w =>
      have hsame : input.renumber gone = input := by
        cases input with
        | timerExpired token => simp [LogNode.woken] at hwoken
        | push _ => rfl
        | «seal» => rfl
        | close _ => rfl
        | read _ _ _ _ => rfl
        | endStream _ => rfl
        | evict _ => rfl
      rw [hsame]
      exact h.wake hn hm hranked hranked' hwoken
  | none =>
      rw [hwoken, Option.map_none] at hunwoken
      cases input with
      | push payload =>
          rw [LogNode.handle_unwoken_push hwoken]
          simp only [Input.renumber]
          rw [LogNode.handle_unwoken_push hunwoken]
          exact ⟨h, rfl⟩
      | «seal» => simp [LogNode.woken] at hwoken
      | close error =>
          rw [LogNode.handle_unwoken_close hwoken]
          simp only [Input.renumber]
          rw [LogNode.handle_unwoken_close hunwoken]
          exact ⟨h, rfl⟩
      | read reader cursor limits timeoutMs =>
          have hne : reader ≠ id := by simpa [Input.ofStream] using hother
          exact h.read_other hne ⟨cursor, limits, timeoutMs⟩
            (hissues reader ⟨cursor, limits, timeoutMs⟩ rfl)
      | endStream ended =>
          have hne : ended ≠ id := by simpa [Input.ofStream] using hother
          exact h.endStream_other hne
      | timerExpired token =>
          have hkept : token ∉ gone := by simpa [Input.ofStream] using hother
          exact h.timerExpired_other hn hm hkept
      | evict upToSeq =>
          refine ⟨⟨?_, h.nextTimer, h.heldOf, h.own⟩, rfl⟩
          show m.window.evict upToSeq = n.window.evict upToSeq
          rw [h.window]

end Mirrors

/-! ## Who gets which token -/

theorem armed_append (out out' : List Output) : armed (out ++ out') = armed out ++ armed out' :=
  List.filterMap_append

@[simp] theorem armed_cancelTimer (timer : Option TimerToken) :
    armed (LogNode.cancelTimer timer) = [] := by
  cases timer <;> rfl

theorem armed_read (n : LogNode) (reader : StreamId) (r : Request) (token : Nat) :
    token ∈ armed (n.onRead reader r.cursor r.limits r.timeoutMs).2 ↔
      token = n.nextTimer + 1 ∧ (n.receive reader r).nextTimer = token := by
  have hspec := n.receive_spec reader r
  rw [(n.onRead_receives reader r).emits, armed_append, armed_cancelTimer, List.nil_append]
  generalize n.receive reader r = reception at hspec ⊢
  cases hspec with
  | answered response hanswer =>
      simp only [armed, List.filterMap_cons, List.filterMap_nil, List.not_mem_nil, false_iff]
      omega
  | probed hnone =>
      simp only [armed, List.filterMap_cons, List.filterMap_nil, List.not_mem_nil, false_iff]
      omega
  | held hnone =>
      simp only [armed, List.filterMap_nil, List.not_mem_nil, false_iff]
      omega
  | timed hnone ms =>
      simp only [armed, List.filterMap_cons, List.filterMap_nil, List.mem_singleton]
      omega

theorem mem_armedBy {n : LogNode} {id : StreamId} {input : Input} {token : Nat}
    (h : token ∈ armedBy id input (n.handle input).2) :
    ∃ r : Request, input = .read id r.cursor r.limits r.timeoutMs ∧
      token = n.nextTimer + 1 ∧ (n.receive id r).nextTimer = token := by
  cases input with
  | read reader cursor limits timeoutMs =>
      simp only [armedBy] at h
      split at h
      · rename_i heq
        subst heq
        exact ⟨⟨cursor, limits, timeoutMs⟩, rfl,
          (armed_read n reader ⟨cursor, limits, timeoutMs⟩ token).mp h⟩
      · simp at h
  | push _ => simp [armedBy] at h
  | «seal» => simp [armedBy] at h
  | close _ => simp [armedBy] at h
  | endStream _ => simp [armedBy] at h
  | timerExpired _ => simp [armedBy] at h
  | evict _ => simp [armedBy] at h

theorem handle_nextTimer_le (n : LogNode) (input : Input) :
    n.nextTimer ≤ (n.handle input).1.nextTimer := by
  cases hwoken : n.woken input with
  | some w =>
      rw [LogNode.handle_woken hwoken, w.releaseHeld_frame.2.1, (LogNode.woken_sessions hwoken).2]
  | none =>
      cases input with
      | push payload => rw [LogNode.handle_unwoken_push hwoken]
      | «seal» => simp [LogNode.woken] at hwoken
      | close error => rw [LogNode.handle_unwoken_close hwoken]
      | read reader cursor limits timeoutMs =>
          have hnext := (n.onRead_receives reader ⟨cursor, limits, timeoutMs⟩).nextTimer
          show n.nextTimer ≤ (n.onRead reader cursor limits timeoutMs).1.nextTimer
          rw [hnext]
          rcases n.receive_nextTimer reader ⟨cursor, limits, timeoutMs⟩ with hsame | hmore <;> omega
      | endStream ended => exact (n.onEndStream_effect ended).2.2.1.ge
      | timerExpired token =>
          simp only [LogNode.handle, LogNode.onTimerExpired]
          split
          · exact le_rfl
          · split <;> exact le_rfl
      | evict upToSeq => exact le_rfl

theorem issuedFrom_bounds {n : LogNode} {inputs : List Input} {id : StreamId}
    {token : Nat} (h : token ∈ issuedFrom n inputs id) :
    n.nextTimer < token ∧ token ≤ (after LogNode.handle n inputs).nextTimer := by
  induction inputs generalizing n with
  | nil => simp [issuedFrom, trace] at h
  | cons input rest ih =>
      have hle := handle_nextTimer_le n input
      have hlater : (n.handle input).1.nextTimer ≤
          (after LogNode.handle (n.handle input).1 rest).nextTimer := by
        refine after_induction LogNode.handle (P := fun s => (n.handle input).1.nextTimer ≤
          s.nextTimer) le_rfl ?_
        intro s i _ hs
        exact hs.trans (handle_nextTimer_le s i)
      rw [issuedFrom, trace, List.flatMap_cons] at h
      rw [after_cons]
      rcases List.mem_append.mp h with hfirst | hrest
      · obtain ⟨r, rfl, rfl, hnext⟩ := mem_armedBy hfirst
        have hcounter : (n.handle (.read id r.cursor r.limits r.timeoutMs)).1.nextTimer =
            n.nextTimer + 1 := (n.onRead_receives id r).nextTimer.trans hnext
        omega
      · obtain ⟨hlt, hbound⟩ := ih hrest
        omega

theorem issuedFrom_append (n : LogNode) (front back : List Input) (id : StreamId) :
    issuedFrom n (front ++ back) id =
      issuedFrom n front id ++ issuedFrom (after LogNode.handle n front) back id := by
  rw [issuedFrom, trace_append, List.flatMap_append]
  rfl

/-- In every run the next token goes to the erased stream exactly when that stream
reads. -/
theorem run_issues (config : Config) {inputs front : List Input} {input : Input}
    (hfront : front ++ [input] <+: inputs) (id : StreamId) :
    Mirrors.Issues id (issuedTo config inputs id) (run config front) input := by
  rintro reader r rfl hnext
  obtain ⟨back, rfl⟩ := hfront
  set n := run config front with hn
  have hsplit : issuedTo config (front ++ [.read reader r.cursor r.limits r.timeoutMs] ++ back) id =
      issuedTo config front id ++
        (armedBy id (.read reader r.cursor r.limits r.timeoutMs)
          (n.handle (.read reader r.cursor r.limits r.timeoutMs)).2 ++
          issuedFrom (n.handle (.read reader r.cursor r.limits r.timeoutMs)).1 back id) := by
    rw [issuedTo, List.append_assoc, issuedFrom_append]
    rfl
  rw [hsplit, List.mem_append, List.mem_append]
  constructor
  · rintro (hold | hnow | hlater)
    · have hbound : n.nextTimer + 1 ≤ n.nextTimer := (issuedFrom_bounds hold).2
      omega
    · obtain ⟨r', heq, -, -⟩ := mem_armedBy hnow
      exact (Input.read.inj heq).1
    · have hbound := (issuedFrom_bounds hlater).1
      have hcounter := (n.onRead_receives reader r).nextTimer
      simp only [LogNode.handle, hcounter, hnext] at hbound
      omega
  · rintro rfl
    refine .inr (.inl ?_)
    rw [armedBy, if_pos rfl]
    exact (armed_read n reader r _).mpr ⟨rfl, hnext⟩

/-! ## Whole runs -/

theorem erase_concat (id : StreamId) (gone : List TimerToken) (front : List Input)
    (input : Input) :
    erase id gone (front ++ [input]) = if input.ofStream id gone = true then
      erase id gone front else erase id gone front ++ [input.renumber gone] := by
  rw [erase, List.filter_append, List.map_append, ← erase]
  cases hself : input.ofStream id gone with
  | true => simp [hself]
  | false => simp [hself]

theorem creationOrder_erase (id : StreamId) (gone : List TimerToken) (inputs : List Input) :
    creationOrder (erase id gone inputs) = strike (creationOrder inputs) id := by
  induction inputs using List.reverseRecOn with
  | nil => rfl
  | append_singleton front input ih =>
      have hkept : input.ofStream id gone = false →
          (input.renumber gone).presence.apply (strike (creationOrder front) id) =
            strike (input.presence.apply (creationOrder front)) id := by
        intro hother
        cases input with
        | read reader _ _ _ =>
            have hne : reader ≠ id := by simpa [Input.ofStream] using hother
            exact (strike_enrol_of_ne _ hne).symm
        | endStream ended => exact strike_comm _ _ _
        | push _ => rfl
        | «seal» => rfl
        | close _ => rfl
        | timerExpired _ => rfl
        | evict _ => rfl
      rw [erase_concat, creationOrder_concat]
      cases hself : input.ofStream id gone with
      | false =>
          rw [if_neg (by simp), creationOrder_concat, ih]
          exact hkept hself
      | true =>
          rw [if_pos rfl, ih]
          cases input with
          | read reader _ _ _ =>
              obtain rfl : reader = id := by simpa [Input.ofStream] using hself
              exact (strike_enrol_self _ _).symm
          | endStream ended =>
              obtain rfl : ended = id := by simpa [Input.ofStream] using hself
              simp [Input.presence, Presence.apply, strike]
          | timerExpired _ => rfl
          | push _ => simp [Input.ofStream] at hself
          | «seal» => simp [Input.ofStream] at hself
          | close _ => simp [Input.ofStream] at hself
          | evict _ => simp [Input.ofStream] at hself

theorem mirrors_new (config : Config) (id : StreamId) (gone : List TimerToken) :
    Mirrors id gone (LogNode.new config) (LogNode.new config) := by
  constructor
  case window => rfl
  case nextTimer => rfl
  case heldOf => simp [LogNode.new, Table.new, Table.heldOf]
  case own =>
    rintro id' token ⟨held, hheld, -⟩
    simp [LogNode.new, Table.new, Table.heldOf] at hheld

section

variable {config : Config} {inputs : List Input} {id : StreamId} {gone : List TimerToken}

theorem run_step (hgone : issuedTo config inputs id = gone) {front : List Input} {input : Input}
    (hfront : front ++ [input] <+: inputs)
    (h : Mirrors id gone (run config front) (run config (erase id gone front))) :
    (input.ofStream id gone = true →
      Mirrors id gone ((run config front).handle input).1 (run config (erase id gone front)) ∧
        ((run config front).handle input).2.filter (Output.ofOthers id gone) = []) ∧
    (input.ofStream id gone = false →
      Mirrors id gone ((run config front).handle input).1
          ((run config (erase id gone front)).handle (input.renumber gone)).1 ∧
        Echoes id gone ((run config front).handle input).2
          ((run config (erase id gone front)).handle (input.renumber gone)).2) := by
  have hissues := hgone ▸ run_issues config hfront id
  constructor
  · intro hself
    exact h.handle_self (run_wf config front) hissues hself
  · intro hother
    have hranked := run_ranked config (erase id gone front)
    rw [creationOrder_erase] at hranked
    exact h.handle_other (run_wf config front) (run_wf config _) (run_ranked config front)
      hranked hissues hother

theorem run_mirrors (hgone : issuedTo config inputs id = gone) {front : List Input}
    (hfront : front <+: inputs) :
    Mirrors id gone (run config front)
      (run config (erase id gone front)) := by
  induction front using List.reverseRecOn with
  | nil => exact mirrors_new config id _
  | append_singleton front input ih =>
      obtain ⟨hself, hother⟩ := run_step hgone hfront
        (ih ((List.prefix_append front [input]).trans hfront))
      rw [run_concat, erase_concat]
      cases hcase : input.ofStream id gone with
      | true =>
          rw [if_pos rfl]
          exact (hself hcase).1
      | false =>
          rw [if_neg (by simp), run_concat]
          exact (hother hcase).1

/-- The batches of the two runs, up to some input. -/
theorem run_echoes (hgone : issuedTo config inputs id = gone) {front : List Input}
    (hfront : front <+: inputs) :
    (∀ p ∈ trace LogNode.handle (LogNode.new config) front,
      p.1.ofStream id gone = true →
        p.2.filter (Output.ofOthers id gone) = []) ∧
    (outputs LogNode.handle (LogNode.new config)
        (erase id gone front)).map
        (fun out => out.filter fun o => !o.lastReader) =
      ((trace LogNode.handle (LogNode.new config) front).filter
          fun p => !p.1.ofStream id gone).map
        fun p => (p.2.filter (Output.ofOthers id gone)).map
          (Output.renumber gone) := by
  induction front using List.reverseRecOn with
  | nil => simp [trace, erase, outputs]
  | append_singleton front input ih =>
      have hbefore := (List.prefix_append front [input]).trans hfront
      obtain ⟨hsilent, hbatches⟩ := ih hbefore
      obtain ⟨hself, hother⟩ := run_step hgone hfront (run_mirrors hgone hbefore)
      have htrace : trace LogNode.handle (LogNode.new config) (front ++ [input]) =
          trace LogNode.handle (LogNode.new config) front ++
            [(input, ((run config front).handle input).2)] := trace_append _ _ _ _
      rw [htrace, erase_concat, List.filter_append, List.map_append, ← hbatches]
      cases hcase : input.ofStream id gone with
      | true =>
          constructor
          · intro p hp hown
            rcases List.mem_append.mp hp with hp | hp
            · exact hsilent p hp hown
            · rw [List.mem_singleton.mp hp]
              exact (hself hcase).2
          · simp [hcase]
      | false =>
          have hecho := (hother hcase).2
          constructor
          · intro p hp hown
            rcases List.mem_append.mp hp with hp | hp
            · exact hsilent p hp hown
            · rw [List.mem_singleton.mp hp] at hown
              simp [hcase] at hown
          · rw [if_neg (by simp), outputs_append, List.map_append]
            congr 1
            simp only [outputs, List.map_cons, List.map_nil, List.filter_cons, hcase,
              Bool.not_false, if_true, List.filter_nil]
            rw [← hecho]
            rfl

end

/-- **Stream isolation.**  Erasing the reads and ends of one stream and the expiries of
its timers leaves head, floor and lifecycle as they were at every moment, and every
batch of the others, up to an increasing renumbering of their timer tokens and the
notice that the last reader left. -/
theorem stream_isolation (config : Config) (inputs : List Input) (id : StreamId) :
    let gone := issuedTo config inputs id
    let events := trace LogNode.handle (LogNode.new config) inputs
    StrictMonoOn (renumber gone) {token | token ∉ gone} ∧
    (∀ front, front <+: inputs →
      (run config (erase id gone front)).head = (run config front).head ∧
      (run config (erase id gone front)).floor = (run config front).floor ∧
      (run config (erase id gone front)).window.lifecycle =
        (run config front).window.lifecycle) ∧
    (∀ p ∈ events, p.1.ofStream id gone = true →
      p.2.filter (Output.ofOthers id gone) = []) ∧
    (outputs LogNode.handle (LogNode.new config) (erase id gone inputs)).map
        (fun out => out.filter fun o => !o.lastReader) =
      (events.filter fun p => !p.1.ofStream id gone).map
        fun p => (p.2.filter (Output.ofOthers id gone)).map (Output.renumber gone) := by
  intro gone events
  obtain ⟨hsilent, hbatches⟩ := run_echoes (rfl : issuedTo config inputs id = gone)
    List.prefix_rfl
  refine ⟨renumber_strictMonoOn, fun front hfront => ?_, hsilent, hbatches⟩
  have hwindow := (run_mirrors (rfl : issuedTo config inputs id = gone) hfront).window
  rw [LogNode.head, LogNode.floor, hwindow]
  exact ⟨rfl, rfl, rfl⟩

end TautShape.Log
