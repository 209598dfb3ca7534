import TautShape.Log.Release
import TautShape.Lib.Ledger
/-!
# The request and timer protocol

A run of the engine as an exchange of requests and replies, audited by the ledger.
`Books` relates a node to the ledger of its run: the held read of each stream is
the request that waits there.  Each input keeps that relation, so the audit of
every run goes through.
-/

namespace TautShape.Log

open TautShape.Lib

def Input.ask : Input → Ask StreamId Request
  | .read id cursor limits timeoutMs => .read id ⟨cursor, limits, timeoutMs⟩
  | .endStream id => .leave id
  | .timerExpired token => .expire token
  | .push _ | .seal | .close _ => .wake
  | .evict _ => .quiet

def Output.reply : Output → Reply StreamId Response
  | .response r => .answer r.streamId r
  | .setTimer token _ => .arm token
  | .cancelTimer token => .disarm token
  | .producerStop _ | .diagnostic _ => .other

def exchange (config : Config) (inputs : List Input) :
    List (Ask StreamId Request × List (Reply StreamId Response)) :=
  (trace LogNode.handle (LogNode.new config) inputs).map fun p => (p.1.ask, p.2.map Output.reply)

abbrev LogLedger : Type := Ledger StreamId Request Response

def parked (w : Waiting Request) : HeldRead := ⟨w.request.position, w.request.limits, w.timer⟩

structure Books (n : LogNode) (L : LogLedger) : Prop where
  wf : n.sessions.Wf
  held : ∀ id, n.sessions.heldOf id = (L.waiting id).map parked
  timers : L.timers = n.nextTimer

/-- An answered request got a response the node may give. -/
def Fair (n : LogNode) (f : Settled StreamId Request Response) : Prop :=
  ∀ response, f.fate = .answered response → n.Answers f.stream f.request response

def SettledSince (n : LogNode) (L L' : LogLedger) : Prop :=
  ∀ f ∈ L'.settled, f ∈ L.settled ∨ Fair n f

theorem books_new (config : Config) : Books (LogNode.new config) Ledger.new :=
  ⟨Table.wf_new, by simp [LogNode.new, Table.new, Table.heldOf, Ledger.new], rfl⟩

theorem Books.timersUsed {n : LogNode} {L : LogLedger} (h : Books n L)
    {asks : List (StreamId × Request)} {fired : List Nat}
    {out : List (Reply StreamId Response)} (haccounts : L.Accounts asks fired out) :
    n.TimersUsed := by
  intro id held token hheld htoken
  rw [h.held, Option.map_eq_some_iff] at hheld
  obtain ⟨w, hw, rfl⟩ := hheld
  rw [← h.timers]
  exact ((haccounts.timers_covered token).mpr (.inr ⟨id, w, hw, htoken⟩)).2

theorem Books.puts {n n' : LogNode} {L L' : LogLedger} (h : Books n L) {id : StreamId}
    {held : Option HeldRead} (hputs : LogNode.Puts n.sessions id held n'.sessions)
    (hid : held = (L'.waiting id).map parked)
    (hother : ∀ id', id' ≠ id → L'.waiting id' = L.waiting id')
    (htimers : L'.timers = n'.nextTimer) : Books n' L' := by
  refine ⟨hputs.wf, fun id' => ?_, htimers⟩
  rw [hputs.heldOf]
  split
  · rename_i heq
    exact heq ▸ hid
  · rename_i hne
    rw [hother id' (Ne.symm hne), h.held]

theorem Books.retire {n : LogNode} {L : LogLedger} (h : Books n L) (id : StreamId)
    (fate : Fate Response) (hfate : ∀ response, fate ≠ .answered response)
    (rest : List (Reply StreamId Response)) :
    ∃ L', L.retire id fate
        ((LogNode.cancelTimer ((n.sessions.heldOf id).bind HeldRead.timer)).map Output.reply ++
          rest) = some (L', rest) ∧
      L'.waiting id = none ∧ (∀ id', id' ≠ id → L'.waiting id' = L.waiting id') ∧
      L'.timers = L.timers ∧ SettledSince n L L' := by
  have hheld := h.held id
  cases hw : L.waiting id with
  | none =>
      rw [hw, Option.map_none] at hheld
      refine ⟨L, ?_, hw, fun _ _ => rfl, rfl, fun f hf => .inl hf⟩
      simp [Ledger.retire, hw, hheld, LogNode.cancelTimer]
  | some w =>
      rw [hw, Option.map_some] at hheld
      refine ⟨L.settle id w fate .cancelled, ?_, by simp [Ledger.settle], ?_, rfl, ?_⟩
      · cases htimer : w.timer with
        | none => simp [Ledger.retire, hw, hheld, LogNode.cancelTimer, parked, htimer]
        | some token =>
            simp [Ledger.retire, hw, hheld, LogNode.cancelTimer, parked, htimer, Output.reply]
      · intro id' hne
        simp [Ledger.settle, hne]
      · intro f hf
        rcases List.mem_append.mp hf with hf | hf
        · exact .inl hf
        · obtain rfl := List.mem_singleton.mp hf
          exact .inr fun response heq => absurd heq (hfate response)

theorem settledSince_settle {n : LogNode} {L L' : LogLedger} (h : SettledSince n L L')
    {id : StreamId} {w : Waiting Request} {response : Response} {how : TimerEnd}
    (hanswer : n.Answers id w.request response) :
    SettledSince n L (L'.settle id w (.answered response) how) := by
  intro f hf
  rcases List.mem_append.mp hf with hf | hf
  · exact h f hf
  · obtain rfl := List.mem_singleton.mp hf
    refine .inr fun response' heq => ?_
    obtain rfl := Fate.answered.inj heq
    exact hanswer

theorem Books.read {n : LogNode} {L : LogLedger} (h : Books n L) (hused : n.TimersUsed)
    (id : StreamId) (r : Request) :
    ∃ L', L.post (.read id r)
        ((n.onRead id r.cursor r.limits r.timeoutMs).2.map Output.reply) = some L' ∧
      Books (n.onRead id r.cursor r.limits r.timeoutMs).1 L' ∧ SettledSince n L L' := by
  have hspec := LogNode.onRead_spec h.wf hused id r
  generalize n.onRead id r.cursor r.limits r.timeoutMs = result at hspec ⊢
  cases hspec with
  | answered response hanswer sessions hputs =>
      obtain ⟨M, hretire, hnone, hother, htimers, hsince⟩ := h.retire id
        .superseded (by simp) [.answer id response]
      refine ⟨(M.issue id r).settle id ⟨M.issued, r, none⟩ (.answered response) .cancelled,
        ?_, ?_, ?_⟩
      · simp only [List.map_append, List.map_singleton, Output.reply, hanswer.stream, Ledger.post,
          hretire, Option.bind_some, Ledger.replied, List.all_nil, and_self, if_true]
      · refine h.puts hputs (by simp [Ledger.settle]) (fun id' hne => ?_) (htimers.trans h.timers)
        simp [Ledger.settle, Ledger.issue, hne, hother id' hne]
      · have hissued : SettledSince n L (M.issue id r) := hsince
        exact settledSince_settle hissued hanswer
  | held sessions hputs =>
      obtain ⟨M, hretire, hnone, hother, htimers, hsince⟩ := h.retire id
        .superseded (by simp) []
      rw [List.append_nil] at hretire
      refine ⟨M.issue id r, ?_, ?_, hsince⟩
      · simp only [Ledger.post, hretire, Option.bind_some, Ledger.replied]
      · refine h.puts hputs (by simp [Ledger.issue, parked]) (fun id' hne => ?_)
          (htimers.trans h.timers)
        simp [Ledger.issue, hne, hother id' hne]
  | timed ms sessions hputs =>
      obtain ⟨M, hretire, hnone, hother, htimers, hsince⟩ := h.retire id
        .superseded (by simp) [.arm (n.nextTimer + 1)]
      have htimers' : M.timers = n.nextTimer := htimers.trans h.timers
      refine ⟨(M.issue id r).arm id ⟨M.issued, r, none⟩, ?_, ?_, hsince⟩
      · simp only [List.map_append, List.map_singleton, Output.reply, Ledger.post, hretire,
          Option.bind_some, Ledger.replied, Ledger.issue, htimers', if_true]
      · refine h.puts hputs (by simp [Ledger.arm, Ledger.issue, parked, htimers'])
          (fun id' hne => ?_) (by simp [Ledger.arm, Ledger.issue, htimers'])
        simp [Ledger.arm, Ledger.issue, hne, hother id' hne]

/-! ## The sweep -/

theorem Books.releaseOne {n : LogNode} {L : LogLedger} (h : Books n L) (id : StreamId) :
    ∃ L', L.answers ((n.releaseOne id).2.map Output.reply) = some L' ∧
      Books (n.releaseOne id).1 L' ∧ SettledSince n L L' := by
  have hspec := LogNode.releaseOne_spec h.wf id
  generalize n.releaseOne id = result at hspec ⊢
  cases hspec with
  | absent _ => exact ⟨L, rfl, h, fun f hf => .inl hf⟩
  | answered held hheld response hanswer sessions hputs =>
      rw [h.held, Option.map_eq_some_iff] at hheld
      obtain ⟨w, hw, rfl⟩ := hheld
      have hfair : n.Answers id w.request response := .inl hanswer
      refine ⟨L.settle id w (.answered response) .cancelled, ?_, ?_,
        settledSince_settle (fun f hf => .inl hf) hfair⟩
      · cases htimer : w.timer with
        | none =>
            simp [LogNode.cancelTimer, parked, htimer, Output.reply, hfair.stream, Ledger.answers,
              hw]
        | some token =>
            simp [LogNode.cancelTimer, parked, htimer, Output.reply, hfair.stream, Ledger.answers,
              hw]
      · refine h.puts hputs (by simp [Ledger.settle]) (fun id' hne => ?_) h.timers
        simp [Ledger.settle, hne]
  | parked held hheld hnone sessions hputs =>
      refine ⟨L, rfl, h.puts hputs ?_ (fun _ _ => rfl) h.timers, fun f hf => .inl hf⟩
      rw [← hheld, h.held]

theorem fair_congr {n m : LogNode} (hwindow : m.window = n.window)
    {f : Settled StreamId Request Response} : Fair m f ↔ Fair n f := by
  simp only [Fair, LogNode.Answers, LogNode.answerOf_congr hwindow]

theorem Books.sweep {n : LogNode} {L : LogLedger} (h : Books n L) (ids : List StreamId) :
    ∃ L', L.answers ((outputs LogNode.releaseOne n ids).flatten.map Output.reply) = some L' ∧
      Books (after LogNode.releaseOne n ids) L' ∧
      (after LogNode.releaseOne n ids).window = n.window ∧ SettledSince n L L' := by
  induction ids generalizing n L with
  | nil => exact ⟨L, rfl, h, rfl, fun f hf => .inl hf⟩
  | cons id rest ih =>
      obtain ⟨M, hanswers, hbooks, hsince⟩ := h.releaseOne id
      have hwindow := (LogNode.releaseOne_spec h.wf id).frame.1
      obtain ⟨L', hrest, hbooks', hwindow', hsince'⟩ := ih hbooks
      refine ⟨L', ?_, hbooks', hwindow'.trans hwindow, fun f hf => ?_⟩
      · rw [outputs, List.flatten_cons, List.map_append, Ledger.answers_append hanswers, hrest]
      · rcases hsince' f hf with hf | hf
        · exact hsince f hf
        · exact .inr ((fair_congr hwindow).mp hf)

theorem Books.releaseHeld {n : LogNode} {L : LogLedger} (h : Books n L) :
    ∃ L', L.answers (n.releaseHeld.2.map Output.reply) = some L' ∧
      Books n.releaseHeld.1 L' ∧ SettledSince n.releaseHeld.1 L L' := by
  obtain ⟨L', hanswers, hbooks, hwindow, hsince⟩ := h.sweep n.sessions.heldInCreationOrder
  exact ⟨L', hanswers, hbooks, fun f hf => (hsince f hf).imp_right (fair_congr hwindow).mpr⟩

/-! ## One input -/

theorem books_window {n : LogNode} {L : LogLedger} (h : Books n L) (window : Window) :
    Books { n with window := window } L :=
  ⟨h.wf, h.held, h.timers⟩

theorem Books.endStream {n : LogNode} {L : LogLedger} (h : Books n L) (id : StreamId) :
    ∃ L', L.post (.leave id) ((n.onEndStream id).2.map Output.reply) = some L' ∧
      Books (n.onEndStream id).1 L' ∧ SettledSince n L L' := by
  have hremoved := n.sessions.remove_snd id
  have hputs : LogNode.Puts n.sessions id none (n.sessions.remove id).1 :=
    ⟨h.wf.remove id, n.sessions.heldOf_remove id⟩
  have hheld : n.sessions.heldOf id = (n.sessions.remove id).2.bind Entry.held := by
    rw [hremoved, Table.heldOf]
  unfold LogNode.onEndStream
  generalize n.sessions.remove id = removed at hputs hheld ⊢
  obtain ⟨sessions, entry⟩ := removed
  cases entry with
  | none =>
      obtain ⟨M, hretire, hnone, hother, htimers, hsince⟩ := h.retire id .dropped (by simp) []
      rw [Option.bind_none] at hheld
      simp only [hheld, Option.bind_none, LogNode.cancelTimer, List.map_nil, List.append_nil]
        at hretire
      refine ⟨M, by simp [Ledger.post, hretire], ?_, hsince⟩
      refine ⟨h.wf, fun id' => ?_, htimers.trans h.timers⟩
      by_cases hid : id' = id
      · rw [hid, hheld, hnone, Option.map_none]
      · rw [h.held, hother id' hid]
  | some entry =>
      obtain ⟨M, hretire, hnone, hother, htimers, hsince⟩ := h.retire id .dropped (by simp)
        ((if n.stopWhen = .lastReader ∧ 1 ≤ n.sessions.len ∧ sessions.len = 0 then
          [Output.producerStop .lastReaderGone] else []).map Output.reply)
      rw [Option.bind_some] at hheld
      refine ⟨M, ?_, ?_, hsince⟩
      · simp only [hheld] at hretire
        simp only [Ledger.post, List.map_append, hretire, Option.bind_some]
        rw [if_pos]
        split <;> rfl
      · exact h.puts hputs (by simp [hnone]) hother (htimers.trans h.timers)

theorem Books.timerExpired {n : LogNode} {L : LogLedger} (h : Books n L) (token : TimerToken) :
    (∃ id w sessions, L.waiting id = some w ∧ w.timer = some token ∧
        LogNode.Puts n.sessions id none sessions ∧
        n.onTimerExpired token = ({ n with sessions := sessions },
          [.response ⟨id, [], w.request.position, .wouldBlock, none⟩])) ∨
      (¬ ∃ id w, L.waiting id = some w ∧ w.timer = some token) ∧
        n.onTimerExpired token = (n, []) := by
  have hindex := h.wf.timer_iff token
  unfold LogNode.onTimerExpired Table.findByTimer
  cases hfound : n.sessions.timerIndex[token]? with
  | none =>
      refine .inr ⟨?_, rfl⟩
      rintro ⟨id, w, hw, ht⟩
      have hsome := (hindex id).mpr ⟨parked w, by rw [h.held, hw, Option.map_some], ht⟩
      simp [hfound] at hsome
  | some id =>
      obtain ⟨held, hheld, ht⟩ := (hindex id).mp hfound
      have hputs := LogNode.puts_clearHeld h.wf id
      have hprev := n.sessions.clearHeld_snd id
      rw [hheld] at hprev
      rw [h.held, Option.map_eq_some_iff] at hheld
      obtain ⟨w, hw, rfl⟩ := hheld
      refine .inl ⟨id, w, (n.sessions.clearHeld id).1, hw, ht, hputs, ?_⟩
      simp only
      generalize n.sessions.clearHeld id = cleared at hprev ⊢
      obtain ⟨sessions, prev⟩ := cleared
      simp only at hprev
      subst hprev
      rfl

theorem Books.expire {n : LogNode} {L : LogLedger} (h : Books n L)
    {asks : List (StreamId × Request)} {fired : List Nat}
    {out : List (Reply StreamId Response)} (haccounts : L.Accounts asks fired out)
    (token : TimerToken) :
    ∃ L', L.post (.expire token) ((n.onTimerExpired token).2.map Output.reply) = some L' ∧
      Books (n.onTimerExpired token).1 L' ∧ SettledSince n L L' := by
  rcases h.timerExpired token with ⟨id, w, sessions, hw, ht, hputs, hstep⟩ | ⟨hnone, hstep⟩
  · have harmed := (haccounts.armed_iff token id).mpr ⟨w, hw, ht⟩
    rw [hstep]
    refine ⟨L.settle id w (.answered ⟨id, [], w.request.position, .wouldBlock, none⟩) .expired,
      by simp [Ledger.post, harmed, hw, Output.reply], ?_,
      settledSince_settle (fun f hf => .inl hf) (.inr rfl)⟩
    refine h.puts hputs (by simp [Ledger.settle]) (fun id' hne => ?_) h.timers
    simp [Ledger.settle, hne]
  · have harmed : L.armed token = none := by
      refine Option.eq_none_iff_forall_ne_some.mpr fun id hid => hnone ?_
      exact ⟨id, (haccounts.armed_iff token id).mp hid⟩
    rw [hstep]
    exact ⟨L, by simp [Ledger.post, harmed], h, fun f hf => .inl hf⟩

theorem Books.close {n : LogNode} {L : LogLedger} (h : Books n L) (error : Option Error) :
    ∃ L', L.post .wake ((n.onClose error).2.map Output.reply) = some L' ∧
      Books (n.onClose error).1 L' ∧ SettledSince (n.onClose error).1 L L' := by
  obtain ⟨L', hanswers, hbooks, hsince⟩ :=
    (books_window h (n.window.close error)).releaseHeld
  unfold LogNode.onClose
  split
  · exact ⟨L, rfl, h, fun f hf => .inl hf⟩
  · exact ⟨L, rfl, h, fun f hf => .inl hf⟩
  · refine ⟨L', ?_, hbooks, hsince⟩
    simp only [Ledger.post, List.map_append, List.map_singleton, Output.reply,
      Ledger.answers_append hanswers, Ledger.answers]

theorem Books.handle {n : LogNode} {L : LogLedger} (h : Books n L)
    {asks : List (StreamId × Request)} {fired : List Nat}
    {out : List (Reply StreamId Response)} (haccounts : L.Accounts asks fired out)
    (input : Input) :
    ∃ L', L.post input.ask ((n.handle input).2.map Output.reply) = some L' ∧
      Books (n.handle input).1 L' ∧ SettledSince (n.handle input).1 L L' := by
  cases input with
  | push payload =>
      obtain ⟨L', hanswers, hbooks, hsince⟩ :=
        (books_window h (n.window.push payload)).releaseHeld
      show ∃ L', L.post .wake ((n.onPush payload).2.map Output.reply) = some L' ∧ _
      simp only [LogNode.handle, LogNode.onPush]
      split
      · exact ⟨L', hanswers, hbooks, hsince⟩
      · exact ⟨L, rfl, h, fun f hf => .inl hf⟩
  | «seal» => exact (books_window h n.window.seal).releaseHeld
  | close error => exact h.close error
  | read id cursor limits timeoutMs =>
      obtain ⟨L', hpost, hbooks, hsince⟩ :=
        h.read (h.timersUsed haccounts) id ⟨cursor, limits, timeoutMs⟩
      have hwindow := n.onRead_window id cursor limits timeoutMs
      exact ⟨L', hpost, hbooks, fun f hf => (hsince f hf).imp_right (fair_congr hwindow).mpr⟩
  | endStream id =>
      obtain ⟨L', hpost, hbooks, hsince⟩ := h.endStream id
      have hwindow := n.onEndStream_window id
      exact ⟨L', hpost, hbooks, fun f hf => (hsince f hf).imp_right (fair_congr hwindow).mpr⟩
  | timerExpired token =>
      obtain ⟨L', hpost, hbooks, hsince⟩ := h.expire haccounts token
      have hwindow := n.onTimerExpired_window token
      exact ⟨L', hpost, hbooks, fun f hf => (hsince f hf).imp_right (fair_congr hwindow).mpr⟩
  | evict upToSeq => exact ⟨L, rfl, books_window h _, fun f hf => .inl hf⟩

/-! ## Whole runs -/

theorem exchange_concat (config : Config) (front : List Input) (input : Input) :
    exchange config (front ++ [input]) = exchange config front ++
      [(input.ask, ((run config front).handle input).2.map Output.reply)] := by
  rw [exchange, trace_append, List.map_append]
  rfl

/-- The audit of a run goes through, its books are the node's, and each answer was
fair when it was given. -/
theorem run_books (config : Config) (inputs : List Input) :
    ∃ L : LogLedger, Ledger.audit (exchange config inputs) = some L ∧
      Books (run config inputs) L ∧
      ∀ f ∈ L.settled, ∃ front, front <+: inputs ∧ Fair (run config front) f := by
  induction inputs using List.reverseRecOn with
  | nil => exact ⟨Ledger.new, rfl, books_new config, by simp [Ledger.new]⟩
  | append_singleton front input ih =>
      obtain ⟨L, haudit, hbooks, hfair⟩ := ih
      obtain ⟨L', hpost, hbooks', hsince⟩ :=
        hbooks.handle (Ledger.audit_accounts haudit) input
      have hrun : run config (front ++ [input]) = ((run config front).handle input).1 :=
        after_concat _ _ _ _
      rw [hrun, exchange_concat, Ledger.audit_concat, haudit, Option.bind_some]
      refine ⟨L', hpost, hbooks', fun f hf => ?_⟩
      rcases hsince f hf with hold | hnew
      · obtain ⟨front', hfront, hthen⟩ := hfair f hold
        exact ⟨front', hfront.trans (List.prefix_append front [input]), hthen⟩
      · exact ⟨front ++ [input], List.prefix_rfl, hrun ▸ hnew⟩

/-- **The request and timer protocol.**  The audit of every run goes through: each read
is answered once, superseded, dropped or still held, and each timer ends once.  What
waits in the ledger is what the node holds, the timer of a held read answers it with
`would_block`, and any other timer does nothing. -/
theorem log_protocol (config : Config) (inputs : List Input) :
    let n := run config inputs
    let events := exchange config inputs
    ∃ L : LogLedger, Ledger.audit events = some L ∧
      L.Accounts (Ledger.asked events) (Ledger.expiries events) (Ledger.replies events) ∧
      (∀ id, n.sessions.heldOf id = (L.waiting id).map parked) ∧
      (∀ id w token, L.waiting id = some w → w.timer = some token →
        (n.handle (.timerExpired token)).2 =
          [.response ⟨id, [], w.request.position, .wouldBlock, none⟩]) ∧
      ∀ token, (∀ id w, L.waiting id = some w → w.timer ≠ some token) →
        n.handle (.timerExpired token) = (n, []) := by
  intro n events
  obtain ⟨L, haudit, hbooks, -⟩ := run_books config inputs
  have haccounts := Ledger.audit_accounts haudit
  refine ⟨L, haudit, haccounts, hbooks.held, ?_, ?_⟩
  · intro id w token hw ht
    rcases hbooks.timerExpired token with ⟨id', w', _, hw', ht', -, hstep⟩ | ⟨hnone, -⟩
    · obtain rfl := haccounts.timer_eq hw hw' ht ht'
      obtain rfl : w = w' := by simpa [hw] using hw'
      exact congrArg Prod.snd hstep
    · exact absurd ⟨id, w, hw, ht⟩ hnone
  · intro token hother
    rcases hbooks.timerExpired token with ⟨id, w, _, hw, ht, -⟩ | ⟨-, hstep⟩
    · exact absurd ht (hother id w hw)
    · exact hstep

end TautShape.Log
