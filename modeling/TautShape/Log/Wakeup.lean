import TautShape.Log.Effect
import TautShape.Log.History
/-!
# No lost wake-up

A held read waits at the head of a live log: that is the invariant `Tail`.  Whatever
reaches the sweep has moved the head or ended the log, so the sweep answers every
held read and parks none again.
-/

namespace TautShape.Log

open TautShape.Lib

/-! ## Streams in the order of creation -/

def Input.presence : Input → Presence StreamId
  | .read id _ _ _ => .join id
  | .endStream id => .leave id
  | .push _ | .seal | .close _ | .timerExpired _ | .evict _ => .stay

def creationOrder (inputs : List Input) : List StreamId := roster (inputs.map Input.presence)

theorem creationOrder_concat (front : List Input) (input : Input) :
    creationOrder (front ++ [input]) = input.presence.apply (creationOrder front) := by
  rw [creationOrder, List.map_append, List.map_singleton, roster_concat, creationOrder]

namespace LogNode

/-- The node that an input hands to the sweep: after an accepted push, a seal or the
first close. -/
def woken (n : LogNode) : Input → Option LogNode
  | .push payload =>
      if n.window.lifecycle = .live then some { n with window := n.window.push payload } else none
  | .seal => some { n with window := n.window.seal }
  | .close error =>
      match n.window.lifecycle with
      | .closed | .failed _ => none
      | .live | .sealed => some { n with window := n.window.close error }
  | .read _ _ _ _ | .endStream _ | .timerExpired _ | .evict _ => none

theorem woken_sessions {n w : LogNode} {input : Input} (h : n.woken input = some w) :
    w.sessions = n.sessions ∧ w.nextTimer = n.nextTimer := by
  cases input with
  | push payload =>
      simp only [woken, Option.ite_none_right_eq_some, Option.some.injEq] at h
      obtain ⟨-, rfl⟩ := h
      exact ⟨rfl, rfl⟩
  | «seal» =>
      obtain rfl := Option.some.inj h
      exact ⟨rfl, rfl⟩
  | close error =>
      simp only [woken] at h
      split at h
      · simp at h
      · simp at h
      · obtain rfl := Option.some.inj h
        exact ⟨rfl, rfl⟩
      · obtain rfl := Option.some.inj h
        exact ⟨rfl, rfl⟩
  | read _ _ _ _ => simp [woken] at h
  | endStream _ => simp [woken] at h
  | timerExpired _ => simp [woken] at h
  | evict _ => simp [woken] at h

def notice : Input → List Output
  | .close error => [.producerStop (if error.isSome then StopReason.failed else .closed)]
  | _ => []

theorem handle_woken {n w : LogNode} {input : Input} (h : n.woken input = some w) :
    n.handle input = (w.releaseHeld.1, w.releaseHeld.2 ++ notice input) := by
  cases input with
  | push payload =>
      simp only [woken, Option.ite_none_right_eq_some, Option.some.injEq] at h
      obtain ⟨hlive, rfl⟩ := h
      simp [handle, onPush, hlive, notice]
  | «seal» =>
      obtain rfl := Option.some.inj h
      simp [handle, onSeal, notice]
  | close error =>
      simp only [woken] at h
      split at h
      · simp at h
      · simp at h
      · rename_i hlive
        obtain rfl := Option.some.inj h
        simp [handle, onClose, hlive, notice]
      · rename_i hsealed
        obtain rfl := Option.some.inj h
        simp [handle, onClose, hsealed, notice]
  | read _ _ _ _ => simp [woken] at h
  | endStream _ => simp [woken] at h
  | timerExpired _ => simp [woken] at h
  | evict _ => simp [woken] at h

theorem handle_unwoken_push {n : LogNode} {payload : Bytes}
    (h : n.woken (.push payload) = none) :
    n.handle (.push payload) = (n, [.diagnostic ⟨.warn, .pushAfterTerminal⟩]) := by
  have hlate : n.window.lifecycle ≠ .live := by
    intro hlive
    simp [woken, hlive] at h
  rw [handle, onPush]
  split
  · rename_i hlive
    exact absurd hlive hlate
  · rfl

theorem handle_unwoken_close {n : LogNode} {error : Option Error}
    (h : n.woken (.close error) = none) : n.handle (.close error) = (n, []) := by
  simp only [woken] at h
  rw [handle, onClose]
  split at h
  · rename_i hclosed
    rw [hclosed]
  · rename_i hfailed
    rw [hfailed]
  · simp at h
  · simp at h

/-! ## The invariant -/

/-- Every held read waits at the head of a live log. -/
def Tail (n : LogNode) : Prop :=
  ∀ id held, n.sessions.heldOf id = some held →
    n.window.lifecycle = .live ∧ held.cursor.seq = n.head

theorem answerOf_eq_none {n : LogNode} {id : StreamId} {cursor : Cursor} {limits : Limits}
    (h : n.answerOf id cursor limits = none) :
    n.window.lifecycle = .live ∧ cursor.seq = n.head := by
  have hspec := n.classify_spec cursor
  unfold answerOf at h
  generalize n.classify cursor = resolution at h hspec
  cases hspec with
  | caughtUpLive hhead hlive => exact ⟨hlive, hhead⟩
  | ahead _ => simp at h
  | behind _ _ => simp at h
  | data _ _ => simp at h
  | terminal _ _ _ _ => simp at h

/-- The head of a live log is not answerable, whatever was evicted. -/
theorem answerOf_at_head {n : LogNode} {history : List Bytes} (hholds : n.window.Holds history)
    (hlive : n.window.lifecycle = .live) {cursor : Cursor} (hhead : cursor.seq = n.head)
    (id : StreamId) (limits : Limits) : n.answerOf id cursor limits = none := by
  have hfloor := hholds.floor_le
  have hlength : n.head = history.length := hholds.head_eq
  have hclassify : n.classify cursor = .caughtUpLive := by
    rw [classify, if_neg (by omega), if_neg (by rw [floor]; omega), if_neg (by omega), hlive]
  rw [answerOf, hclassify]

/-- Whatever waited at the head before is answered by a woken node. -/
theorem Tail.answered {n w : LogNode} {input : Input} (h : n.Tail)
    (hwoken : n.woken input = some w) {id : StreamId} {held : HeldRead}
    (hheld : n.sessions.heldOf id = some held) :
    ∃ response, w.answerOf id held.cursor held.limits = some response := by
  obtain ⟨hlive, hhead⟩ := h id held hheld
  refine Option.ne_none_iff_exists'.mp fun hnone => ?_
  obtain ⟨hlive', hhead'⟩ := answerOf_eq_none hnone
  cases input with
  | push payload =>
      simp only [woken, Option.ite_none_right_eq_some, Option.some.injEq] at hwoken
      obtain ⟨-, rfl⟩ := hwoken
      simp only [head, Window.push] at hhead hhead'
      omega
  | «seal» =>
      obtain rfl := Option.some.inj hwoken
      simp [Window.seal, hlive] at hlive'
  | close error =>
      simp only [woken, hlive] at hwoken
      obtain rfl := Option.some.inj hwoken
      simp only [Window.close, hlive] at hlive'
      cases error <;> simp at hlive'
  | read _ _ _ _ => simp [woken] at hwoken
  | endStream _ => simp [woken] at hwoken
  | timerExpired _ => simp [woken] at hwoken
  | evict _ => simp [woken] at hwoken

theorem Tail.released {n w : LogNode} {input : Input} (h : n.Tail)
    (hwoken : n.woken input = some w) (id : StreamId) :
    (w.release id (n.sessions.heldOf id)).1 = none := by
  cases hheld : n.sessions.heldOf id with
  | none => rw [release]
  | some held =>
      obtain ⟨response, hanswer⟩ := h.answered hwoken hheld
      rw [release, hanswer]

theorem Tail.nothing_held {n w : LogNode} {input : Input} (h : n.Tail) {order : List StreamId}
    (hn : n.sessions.Wf) (hranked : n.sessions.Ranked order) (hwoken : n.woken input = some w)
    (id : StreamId) : (n.handle input).1.sessions.heldOf id = none := by
  have hsessions := (woken_sessions hwoken).1
  rw [handle_woken hwoken]
  rw [(releaseHeld_effect (hsessions ▸ hn) (hsessions ▸ hranked)).2 id, hsessions]
  exact h.released hwoken id

theorem Tail.mono {n n' : LogNode} (h : n.Tail)
    (hlive : n.window.lifecycle = .live → n'.window.lifecycle = .live)
    (hhead : n'.head = n.head)
    (hheld : ∀ id held, n'.sessions.heldOf id = some held → n.sessions.heldOf id = some held) :
    n'.Tail := by
  intro id held hsome
  obtain ⟨hwas, hseq⟩ := h id held (hheld id held hsome)
  exact ⟨hlive hwas, hseq.trans hhead.symm⟩

theorem Tail.read {n : LogNode} (h : n.Tail) (id : StreamId) (r : Request) :
    (n.onRead id r.cursor r.limits r.timeoutMs).1.Tail := by
  have hreceives := n.onRead_receives id r
  intro id' held hsome
  rw [hreceives.window, head, hreceives.window, ← head]
  rw [hreceives.heldOf] at hsome
  split at hsome
  · -- what a read leaves held was not answerable
    have hspec := n.receive_spec id r
    generalize n.receive id r = reception at hspec hsome
    cases hspec with
    | answered response hanswer => simp at hsome
    | probed hnone => simp at hsome
    | held hnone => exact Option.some.inj hsome ▸ answerOf_eq_none hnone
    | timed hnone ms => exact Option.some.inj hsome ▸ answerOf_eq_none hnone
  · exact h id' held hsome

theorem Tail.handle {n : LogNode} (h : n.Tail) {order : List StreamId} (hn : n.sessions.Wf)
    (hranked : n.sessions.Ranked order) (input : Input) : (n.handle input).1.Tail := by
  cases hwoken : n.woken input with
  | some w =>
      intro id held hheld
      rw [h.nothing_held hn hranked hwoken id] at hheld
      simp at hheld
  | none =>
      cases input with
      | push payload => rwa [handle_unwoken_push hwoken]
      | «seal» => simp [woken] at hwoken
      | close error => rwa [handle_unwoken_close hwoken]
      | read id cursor limits timeoutMs => exact h.read id ⟨cursor, limits, timeoutMs⟩
      | endStream id =>
          obtain ⟨-, hheld, -⟩ := n.onEndStream_effect id
          have hwindow := n.onEndStream_window id
          show (n.onEndStream id).1.Tail
          refine h.mono ?_ ?_ ?_
          · rw [hwindow]
            exact fun hlive => hlive
          · rw [head, hwindow, ← head]
          · intro id' held hsome
            rw [hheld] at hsome
            split at hsome
            · simp at hsome
            · exact hsome
      | timerExpired token =>
          rcases onTimerExpired_effect hn token with ⟨id, held, -, -, -, hstep⟩ | ⟨-, hstep⟩
          · show (n.onTimerExpired token).1.Tail
            rw [hstep]
            refine h.mono (fun hlive => hlive) rfl fun id' held' hsome => ?_
            simp only [Table.heldOf_clearHeld] at hsome
            split at hsome
            · simp at hsome
            · exact hsome
          · show (n.onTimerExpired token).1.Tail
            rwa [hstep]
      | evict upToSeq =>
          refine h.mono (fun hlive => ?_) ?_ fun id held hsome => hsome
          · simp only [LogNode.handle, onEvict, Window.evict]
            split <;> exact hlive
          · simp only [LogNode.handle, onEvict, head, Window.evict]
            split <;> rfl

/-! ## The order of the sweep -/

theorem handle_ranked {n : LogNode} {order : List StreamId} (hn : n.sessions.Wf)
    (hranked : n.sessions.Ranked order) (input : Input) :
    (n.handle input).1.sessions.Ranked (input.presence.apply order) := by
  cases hwoken : n.woken input with
  | some w =>
      have hstay : input.presence = .stay := by
        cases input with
        | read _ _ _ _ => simp [woken] at hwoken
        | endStream _ => simp [woken] at hwoken
        | push _ => rfl
        | «seal» => rfl
        | close _ => rfl
        | timerExpired _ => rfl
        | evict _ => rfl
      rw [hstay, handle_woken hwoken]
      refine hranked.congr fun id => ?_
      rw [w.releaseHeld_frame.2.2, (woken_sessions hwoken).1]
  | none =>
      cases input with
      | push payload =>
          rw [handle_unwoken_push hwoken]
          exact hranked
      | «seal» => simp [woken] at hwoken
      | close error =>
          rw [handle_unwoken_close hwoken]
          exact hranked
      | read id cursor limits timeoutMs =>
          have hreceives := n.onRead_receives id ⟨cursor, limits, timeoutMs⟩
          exact (hranked.getOrCreate hn id).congr hreceives.rankOf
      | endStream id =>
          obtain ⟨-, -, -, hsessions⟩ := n.onEndStream_effect id
          show (n.onEndStream id).1.sessions.Ranked (strike order id)
          rw [hsessions]
          exact hranked.remove id
      | timerExpired token =>
          show (n.onTimerExpired token).1.sessions.Ranked order
          rcases onTimerExpired_effect hn token with ⟨id, -, -, -, -, hstep⟩ | ⟨-, hstep⟩
          · rw [hstep]
            exact hranked.congr (n.sessions.rankOf_clearHeld id)
          · rwa [hstep]
      | evict upToSeq => exact hranked

def Reparks (n : LogNode) (id : StreamId) : Prop :=
  ∃ sessions held, n.sessions.clearHeld id = (sessions, some held) ∧
    (({ n with sessions := sessions }).resolveHeld id held).2.1 = none

theorem Reparks.answerOf {n : LogNode} {id : StreamId} (h : n.Reparks id) :
    ∃ held, n.sessions.heldOf id = some held ∧
      n.answerOf id held.cursor held.limits = none := by
  obtain ⟨sessions, held, hclear, hresolve⟩ := h
  have hprev := n.sessions.clearHeld_snd id
  rw [hclear] at hprev
  refine ⟨held, hprev.symm, ?_⟩
  have hclassify : ({ n with sessions := sessions } : LogNode).classify held.cursor =
      n.classify held.cursor := classify_congr rfl _
  simp only [resolveHeld, hclassify] at hresolve
  rw [LogNode.answerOf]
  cases hcase : n.classify held.cursor with
  | data => simp [hcase] at hresolve
  | terminal state error => simp [hcase] at hresolve
  | expired next => simp [hcase] at hresolve
  | caughtUpLive => rfl

/-- Before its own round, a stream of the sweep still holds what it held at the start. -/
theorem heldOf_before {w : LogNode} (hw : w.sessions.Wf) {front : List StreamId} {id : StreamId}
    (hfront : front ++ [id] <+: w.sessions.heldInCreationOrder) :
    (after releaseOne w front).window = w.window ∧
      (after releaseOne w front).sessions.heldOf id = w.sessions.heldOf id := by
  have hnodup : (front ++ [id]).Nodup := hw.heldInCreationOrder_nodup.sublist hfront.sublist
  have hout : id ∉ front := by
    intro hmem
    exact List.disjoint_of_nodup_append hnodup hmem (List.mem_singleton_self id)
  have hsweep := w.sweeps_releaseOne
  refine ⟨hsweep.after_keeps rfl front, ?_⟩
  have hview := hsweep.view_after (s := w) rfl hnodup.of_append_left id
  rwa [if_neg hout] at hview

end LogNode

/-! ## Whole runs -/

theorem run_wf (config : Config) (inputs : List Input) : (run config inputs).sessions.Wf := by
  obtain ⟨_, -, hbooks, -⟩ := run_books config inputs
  exact hbooks.wf

theorem run_concat (config : Config) (front : List Input) (input : Input) :
    run config (front ++ [input]) = ((run config front).handle input).1 :=
  after_concat _ _ _ _

theorem run_ranked (config : Config) (inputs : List Input) :
    (run config inputs).sessions.Ranked (creationOrder inputs) := by
  induction inputs using List.reverseRecOn with
  | nil => exact Table.ranked_new
  | append_singleton front input ih =>
      rw [run_concat, creationOrder_concat]
      exact LogNode.handle_ranked (run_wf config front) ih input

theorem run_tail (config : Config) (inputs : List Input) : (run config inputs).Tail := by
  induction inputs using List.reverseRecOn with
  | nil =>
      intro id held hheld
      simp [run, LogNode.new, Table.new, Table.heldOf] at hheld
  | append_singleton front input ih =>
      rw [run_concat]
      exact ih.handle (run_wf config front) (run_ranked config front) input

def responses (out : List Output) : List Response :=
  out.filterMap fun
    | .response r => some r
    | _ => none

theorem responses_append (out out' : List Output) :
    responses (out ++ out') = responses out ++ responses out' := List.filterMap_append

@[simp] theorem responses_cancelTimer (timer : Option TimerToken) :
    responses (LogNode.cancelTimer timer) = [] := by
  cases timer <;> rfl

@[simp] theorem responses_notice (input : Input) : responses (LogNode.notice input) = [] := by
  cases input <;> rfl

/-! ## What the sweep answers -/

namespace LogNode

variable {n w : LogNode} {input : Input}

theorem Tail.round (h : n.Tail) (hwoken : n.woken input = some w) {id : StreamId}
    {held : HeldRead} (hheld : n.sessions.heldOf id = some held) :
    ∃ response, w.answerOf id held.cursor held.limits = some response ∧
      response.streamId = id ∧ responses (w.release id (some held)).2 = [response] := by
  obtain ⟨response, hanswer⟩ := h.answered hwoken hheld
  have hfair : w.Answers id ⟨some held.cursor, held.limits, none⟩ response := .inl hanswer
  refine ⟨response, hanswer, hfair.stream, ?_⟩
  rw [release, hanswer, responses_append, responses_cancelTimer]
  rfl

theorem responses_woken (hn : n.sessions.Wf) {order : List StreamId}
    (hranked : n.sessions.Ranked order) (hwoken : n.woken input = some w) :
    responses (n.handle input).2 =
      order.flatMap fun id => responses (w.release id (n.sessions.heldOf id)).2 := by
  have hsessions := (woken_sessions hwoken).1
  rw [handle_woken hwoken, responses_append, responses_notice, List.append_nil,
    (releaseHeld_effect (hsessions ▸ hn) (hsessions ▸ hranked)).1, hsessions]
  exact List.filterMap_flatMap

/-- One response for each held read, in the order of the listing. -/
theorem Tail.streams (h : n.Tail) (hwoken : n.woken input = some w) (order : List StreamId) :
    (order.flatMap fun id => responses (w.release id (n.sessions.heldOf id)).2).map
        Response.streamId =
      order.filter fun id => (n.sessions.heldOf id).isSome := by
  induction order with
  | nil => rfl
  | cons id rest ih =>
      rw [List.flatMap_cons, List.map_append, List.filter_cons, ih]
      cases hheld : n.sessions.heldOf id with
      | none => rfl
      | some held =>
          obtain ⟨response, -, hstream, hlist⟩ := h.round hwoken hheld
          rw [hlist, List.map_singleton, hstream]
          rfl

theorem Tail.response_of_held (h : n.Tail) (hwoken : n.woken input = some w)
    {order : List StreamId} {response : Response}
    (hmem : response ∈ order.flatMap fun id =>
      responses (w.release id (n.sessions.heldOf id)).2) :
    ∃ held, n.sessions.heldOf response.streamId = some held ∧
      w.answerOf response.streamId held.cursor held.limits = some response := by
  obtain ⟨id, -, hin⟩ := List.mem_flatMap.mp hmem
  cases hheld : n.sessions.heldOf id with
  | none =>
      rw [hheld] at hin
      simp [release, responses] at hin
  | some held =>
      obtain ⟨response', hanswer, hstream, hlist⟩ := h.round hwoken hheld
      rw [hheld, hlist, List.mem_singleton] at hin
      subst hin
      rw [hstream]
      exact ⟨held, hheld, hanswer⟩

theorem Tail.never_reparks (h : n.Tail) (hn : n.sessions.Wf) (hwoken : n.woken input = some w)
    {front : List StreamId} {id : StreamId}
    (hfront : front ++ [id] <+: w.sessions.heldInCreationOrder) :
    ¬ (after releaseOne w front).Reparks id := by
  intro hreparks
  have hsessions := (woken_sessions hwoken).1
  obtain ⟨hwindow, hsame⟩ := heldOf_before (hsessions ▸ hn) hfront
  obtain ⟨held, hheld, hnone⟩ := hreparks.answerOf
  rw [hsame, hsessions] at hheld
  obtain ⟨response, hanswer⟩ := h.answered hwoken hheld
  rw [answerOf_congr hwindow, hanswer] at hnone
  simp at hnone

end LogNode

/-- **No lost wake-up.**  A held read waits at the head of a live log, so it is not
answerable.  Whatever reaches the sweep answers every held read once, in the order the
streams were created, leaves none held and parks none again. -/
theorem no_lost_wakeup (config : Config) (inputs : List Input) :
    let n := run config inputs
    (∀ id held, n.sessions.heldOf id = some held →
      n.window.lifecycle = .live ∧ held.cursor.seq = n.head ∧
        n.answerOf id held.cursor held.limits = none) ∧
    ∀ input w, n.woken input = some w →
      (responses (n.handle input).2).map Response.streamId =
        (creationOrder inputs).filter (fun id => (n.sessions.heldOf id).isSome) ∧
      (∀ response ∈ responses (n.handle input).2, ∃ held,
        n.sessions.heldOf response.streamId = some held ∧
          w.answerOf response.streamId held.cursor held.limits = some response) ∧
      (∀ id, (n.handle input).1.sessions.heldOf id = none) ∧
      ∀ front id, front ++ [id] <+: w.sessions.heldInCreationOrder →
        ¬ (after LogNode.releaseOne w front).Reparks id := by
  intro n
  have htail : n.Tail := run_tail config inputs
  have hn : n.sessions.Wf := run_wf config inputs
  have hranked : n.sessions.Ranked (creationOrder inputs) := run_ranked config inputs
  constructor
  · intro id held hheld
    obtain ⟨hlive, hhead⟩ := htail id held hheld
    exact ⟨hlive, hhead, LogNode.answerOf_at_head (run_holds config inputs) hlive hhead id _⟩
  · intro input w hwoken
    rw [LogNode.responses_woken hn hranked hwoken]
    refine ⟨htail.streams hwoken _, ?_, htail.nothing_held hn hranked hwoken, ?_⟩
    · intro response hresponse
      exact htail.response_of_held hwoken hresponse
    · intro front id hfront
      exact htail.never_reparks hn hwoken hfront

end TautShape.Log
