import TautShape.Log.Reader
import TautShape.Log.Drive
import TautShape.Log.Stops
import TautShape.Tool.Script
/-!
# The log client

The cursor loop of the tool against a log node.  The client keeps one read under way, reads
on from the next cursor of each response, also of an expired one, and after the reads that
its script counts it writes what the script says.  Both run at their own pace, and the node
has a script of its own.  The frames are their decoded messages.
-/

namespace TautShape.LogClient

open TautShape.Lib TautShape.Log
open TautShape.Tool (Script Pending Injection)

structure Opts where
  streamId : StreamId
  start : Nat
  maxRecords : Option UInt32
  script : Option (Script Input)

structure Client where
  cursor : Nat
  pending : Option (Pending Input)
  sent : Nat

variable (opts : Opts)

def readRequest (cursor : Nat) : Input :=
  .read opts.streamId (some ⟨cursor⟩) ⟨opts.maxRecords, none⟩ none

/-- The loop `sends` up to where it waits. -/
def send (c : Client) : Party Client String × List Input :=
  let sent := c.sent + 1
  match c.pending with
  | none => (.running { c with sent := sent }, [readRequest opts c.cursor])
  | some p =>
      let (due, p) := p.takeDue sent
      (.running { c with sent := sent, pending := some p }, readRequest opts c.cursor :: due)

def Client.new : Client := ⟨opts.start, opts.script.map Pending.new, 0⟩

def start : Party Client String × List Input := send opts (Client.new opts)

/-- What is done with one frame, with the state of the final line. -/
def receive (c : Client) : Output → Party Client String × List Input
  | .response resp =>
      match resp.state with
      | .data | .wouldBlock | .expired => send opts { c with cursor := resp.nextCursor.seq }
      | .eof => (.stopped c "eof", [])
      | .closed => (.stopped c "closed", [])
      | .failed => (.stopped c "failed", [])
  | .producerStop _ => (.stopped c "producer_stop", [])
  | .setTimer _ _ | .cancelTimer _ | .diagnostic _ => (.running c, [])

def produces : Input → Bool
  | .push _ | .seal | .close _ | .evict _ => true
  | .read _ _ _ _ | .endStream _ | .timerExpired _ => false

def prompts : Input → Bool
  | .timerExpired _ => true
  | i => produces i

def session (config : Config) (moves : List (Move Input)) :
    Link Client String LogNode Input Output :=
  (Link.opening (start opts) (LogNode.new config)).run LogNode.handle (receive opts) moves

/-- The script of the client as it was given, and what is left of it. -/
def scripted : List Input := (opts.script.map fun s => (Pending.new s).drainRemaining).getD []

def Client.left (c : Client) : List Input := (c.pending.map Pending.drainRemaining).getD []

/-- The reads that are under way: on their way to the node, held there, or answered on the
way back. -/
def outstanding (l : Link Client String LogNode Input Output) : Nat :=
  (Link.posts Input.wants opts.streamId l.up).length +
    (l.node.sessions.heldOf opts.streamId).toList.length + (responses l.down).length

def line : State → Option String
  | .eof => some "eof"
  | .closed => some "closed"
  | .failed => some "failed"
  | .data | .wouldBlock | .expired => none

/-! ## What the client writes -/

variable {opts}

def wanted (opts : Opts) (cursor : Nat) : Want := ⟨⟨cursor⟩, ⟨opts.maxRecords, none⟩⟩

structure Sends (opts : Opts) (c : Client) (due : List Input) (c' : Client) : Prop where
  cursor : c'.cursor = c.cursor
  sent : c'.sent = c.sent + 1
  left : c.left = due ++ c'.left
  next : ∀ p inj, c'.pending = some p → p.next = some inj → c'.sent < inj.afterFrames

theorem send_spec (opts : Opts) (c : Client) : ∃ c' due,
    send opts c = (.running c', readRequest opts c.cursor :: due) ∧ Sends opts c due c' := by
  unfold send
  cases hpending : c.pending with
  | none =>
      refine ⟨_, _, rfl, rfl, rfl, ?_, fun p inj hp => by simp at hp⟩
      rw [Client.left, hpending]
      rfl
  | some p =>
      refine ⟨_, _, rfl, rfl, rfl, ?_, fun p' inj hp hinj => ?_⟩
      · rw [Client.left, hpending]
        exact (p.takeDue_drain (c.sent + 1)).symm
      · obtain rfl := Option.some.inj hp
        exact p.takeDue_next (c.sent + 1) hinj

theorem wants_produces {i : Input} (h : produces i = true) (s : StreamId) :
    i.wants.request? s = none := by
  cases i <;> first | rfl | simp [produces] at h

theorem posts_produces {due : List Input} (hdue : ∀ i ∈ due, produces i = true) (s : StreamId) :
    Link.posts Input.wants s due = [] :=
  List.filterMap_eq_nil_iff.mpr fun i hi => wants_produces (hdue i hi) s

theorem posts_send {due : List Input} (hdue : ∀ i ∈ due, produces i = true) (cursor : Nat)
    (s : StreamId) : Link.posts Input.wants s (readRequest opts cursor :: due) =
      if s = opts.streamId then [wanted opts cursor] else [] := by
  rw [Link.posts_cons, posts_produces hdue, List.append_nil, readRequest, Input.wants,
    Ask.request?]
  by_cases heq : s = opts.streamId
  · rw [if_pos heq, if_pos heq.symm]
    rfl
  · rw [if_neg heq, if_neg (Ne.symm heq)]
    rfl

theorem stays_send {due : List Input} (hdue : ∀ i ∈ due, produces i = true) (cursor : Nat) :
    ∀ i ∈ readRequest opts cursor :: due, ∀ s, i ≠ .endStream s := by
  intro i hi s
  rcases List.mem_cons.mp hi with rfl | hi
  · simp [readRequest]
  · rintro rfl
    simpa [produces] using hdue _ hi

/-! ## What the node puts out -/

theorem wants_stays {i : Input} (h : ∀ s, i ≠ .endStream s) (s : StreamId) :
    i.wants ≠ .leave s := by
  cases i with
  | endStream s' => exact absurd rfl (h s')
  | _ => simp [Input.wants]

theorem says_final {n : LogNode} {h : List Bytes} (hholds : n.window.Holds h) {id : StreamId}
    {w : Want} {r : Response} (htells : n.Says id w r) {state : String}
    (hline : line r.state = some state) :
    n.window.lifecycle ≠ .live ∧ r.nextCursor.seq = h.length := by
  have hlength : n.head = h.length := hholds.head_eq
  rcases htells with hanswer | ⟨-, rfl⟩
  · have hspec := n.classify_spec w.cursor
    have hknown := hanswer
    unfold LogNode.answerOf at hanswer
    generalize n.classify w.cursor = resolution at hanswer hspec
    cases hspec with
    | terminal hhead st error hstate =>
        obtain rfl := Option.some.inj hanswer
        refine ⟨fun hlive => ?_, hhead.trans hlength⟩
        rw [LogNode.answerOf_at_head hholds hlive hhead] at hknown
        simp at hknown
    | caughtUpLive hhead hlive => simp at hanswer
    | _ =>
        obtain rfl := Option.some.inj hanswer
        simp [line] at hline
  · simp [line] at hline

theorem handle_late {config : Config} {front : List Input}
    (h : (run config front).window.lifecycle ≠ .live) (input : Input) :
    (run config (front ++ [input])).window.lifecycle ≠ .live ∧
      history config (front ++ [input]) = history config front := by
  obtain ⟨L, -, hbooks, -⟩ := run_books config front
  refine ⟨?_, ?_⟩
  · rw [run_concat, hbooks.window_handle input]
    cases input with
    | push payload =>
        rw [Window.react, if_neg h]
        exact h
    | «seal» =>
        rw [Window.react, Window.seal]
        split
        · exact fun heq => by simp at heq
        · exact h
    | close error =>
        simp only [Window.react, Window.close]
        split
        · cases error <;> simp
        · cases error <;> simp
        · exact h
    | evict upToSeq =>
        rw [Window.react, Window.evict]
        split <;> exact h
    | _ => exact h
  · rw [history_concat]
    cases input with
    | push payload => rw [LogNode.accepted, if_neg h, List.append_nil]
    | _ => exact List.append_nil _

theorem run_final (config : Config) (id : StreamId) {inputs : List Input}
    (hstays : ∀ i ∈ inputs, ∀ s, i ≠ .endStream s) {r : Response}
    (hr : r ∈ answered config inputs id) {state : String} (hline : line r.state = some state) :
    (run config inputs).window.lifecycle ≠ .live ∧
      r.nextCursor.seq = (history config inputs).length := by
  induction inputs using List.reverseRecOn with
  | nil => simp [answered, outputs, answersTo, responses] at hr
  | append_singleton front input ih =>
      rw [answered_concat, List.mem_append] at hr
      rcases hr with hold | hnew
      · obtain ⟨hlate, hnext⟩ := ih (fun i hi => hstays i (List.mem_append_left _ hi)) hold
        obtain ⟨hlate', hsame⟩ := handle_late hlate input
        exact ⟨hlate', by rw [hsame, hnext]⟩
      · have hpassed := LogNode.handle_passed (run_wf config front) (run_tail config front)
          (run_ranked config front) (wants_stays (hstays input (by simp)) id)
        have hholds := run_holds config (front ++ [input])
        rw [← run_concat] at hpassed
        rw [answersTo_eq_told] at hnew
        cases hpassed with
        | told w r' hpending htells htold hkept =>
            have htold : Desk.told id (((run config front).handle input).2.map Output.reply) = [r'] :=
              htold
            obtain rfl := List.mem_singleton.mp (htold ▸ hnew)
            exact says_final hholds htells hline
        | untold htold hkept =>
            have htold : Desk.told id (((run config front).handle input).2.map Output.reply) = [] :=
              htold
            simp [htold] at hnew

theorem run_stopped (config : Config) {inputs : List Input}
    (hstays : ∀ i ∈ inputs, ∀ s, i ≠ .endStream s) {reason : StopReason}
    (hstop : .producerStop reason ∈
      (outputs LogNode.handle (LogNode.new config) inputs).flatten) :
    (run config inputs).isClosed = true := by
  induction inputs using List.reverseRecOn with
  | nil => simp [outputs] at hstop
  | append_singleton front input ih =>
      rw [outputs_append, List.flatten_append, List.mem_append] at hstop
      rw [run_concat, LogNode.handle_isClosed, Bool.or_eq_true]
      rcases hstop with hold | hnew
      · exact .inl (ih (fun i hi => hstays i (List.mem_append_left _ hi)) hold)
      · refine .inr ?_
        have hout : .producerStop reason ∈ ((run config front).handle input).2 := by
          simpa [outputs, run] using hnew
        have hsaid : reason.stop ∈ signals.stops ((run config front).handle input).2 :=
          List.mem_filterMap.mpr ⟨_, hout, rfl⟩
        have hend := hstays input (by simp)
        cases LogNode.handle_tells (run_wf config front) (run_ranked config front) input with
        | nothing hpresence hclosing hstops =>
            rw [hstops] at hsaid
            simp at hsaid
        | leaving who hpresence hclosing hstops =>
            cases input with
            | endStream s => exact absurd rfl (hend s)
            | _ => simp [signals, Input.presence] at hpresence
        | ending failed hpresence hopen hclosing stops notice hstops hfront hnotice =>
            have hclosing : input.closing = some failed := hclosing
            rw [hclosing]
            rfl

/-! ## The conversation -/

def Ends (state : String) (taken : List Output) : Prop :=
  state = "producer_stop" ∧ (∃ reason, .producerStop reason ∈ taken) ∨
    ∃ a, (responses taken).getLast? = some a ∧ line a.state = some state

/-- What holds at every moment.  `waits` is the request under way, which outlives the
client if it was told to stop. -/
structure Reading (opts : Opts) (config : Config)
    (l : Link Client String LogNode Input Output) : Prop where
  recorded : l.Recorded LogNode.handle (LogNode.new config)
  stays : ∀ i ∈ l.up, ∀ s, i ≠ .endStream s
  fed : ∀ i ∈ l.fed, ∀ s, i ≠ .endStream s
  threaded : (LogNode.new config).Threaded opts.streamId opts.start l.fed
  mine : ∀ a, .response a ∈ l.taken → a.streamId = opts.streamId
  place : ∃ waits : Option Want,
    (∀ s, Standing (fun _ => True) (fun _ _ => True) (if s = opts.streamId then waits else none)
      (Link.posts Input.wants s l.up) (l.node.desk.kept s)
      (Desk.told s (l.down.map Output.reply))) ∧
    (∀ w, waits = some w → w.cursor.seq = position opts.start (responses l.taken)) ∧
    ∀ c, l.client = .running c → waits = some (wanted opts c.cursor)
  sent : ∀ c, l.client = .running c → c.sent = (responses l.taken).length + 1
  stopped : ∀ c state, l.client = .stopped c state → Ends state l.taken
  left : ∃ handed, scripted opts = handed ++ l.client.state.left ∧
    handed.Sublist (l.fed ++ l.up)
  due : ∀ p inj, l.client.state.pending = some p → p.next = some inj →
    l.client.state.sent < inj.afterFrames

theorem told_response (s : StreamId) (a : Response) (rest : List Output) :
    Desk.told s ((Output.response a :: rest).map Output.reply) =
      (if a.streamId = s then [a] else []) ++ Desk.told s (rest.map Output.reply) := by
  rw [List.map_cons, Link.told_cons, Output.reply, Desk.told_answer]

theorem responses_eq_told {id : StreamId} {out : List Output}
    (h : ∀ a, .response a ∈ out → a.streamId = id) :
    responses out = Desk.told id (out.map Output.reply) := by
  rw [← answersTo_eq_told, answersTo, List.filter_eq_self.mpr fun a ha => ?_]
  obtain ⟨o, ho, hsome⟩ := List.mem_filterMap.mp ha
  cases o with
  | response a' =>
      obtain rfl := Option.some.inj hsome
      simpa using h a' ho
  | _ => simp at hsome

namespace Reading

variable {config : Config} {l : Link Client String LogNode Input Output}

theorem answered (h : Reading opts config l) : answered config l.fed opts.streamId =
    responses l.taken ++ Desk.told opts.streamId (l.down.map Output.reply) := by
  rw [Log.answered, h.recorded.sent, answersTo_append, responses_eq_told h.mine,
    answersTo_eq_told, answersTo_eq_told]

theorem mine_down (h : Reading opts config l) : ∀ a, .response a ∈ l.down →
    a.streamId = opts.streamId := by
  intro a ha
  obtain ⟨waits, hstanding, -, -⟩ := h.place
  by_contra hne
  have htold : a ∈ Desk.told a.streamId (l.down.map Output.reply) := by
    rw [← answersTo_eq_told, answersTo, List.mem_filter]
    exact ⟨List.mem_filterMap.mpr ⟨_, ha, rfl⟩, by simp⟩
  have hquiet := hstanding a.streamId
  rw [if_neg hne] at hquiet
  have hcount := hquiet.count
  have hpos := List.length_pos_of_mem htold
  simp only [Option.toList_none, List.length_nil] at hcount
  omega

theorem feed (h : Reading opts config l) {i : Input} {rest : List Input}
    (hup : l.up = i :: rest ∨ l.up = rest ∧ ∀ s, i.wants.request? s = none)
    (hend : ∀ s, i ≠ .endStream s) :
    Reading opts config ({ l with up := rest }.feed LogNode.handle i) := by
  have hrest : ∀ j ∈ rest, j ∈ l.up := by
    rcases hup with hup | ⟨hup, -⟩
    · rw [hup]
      exact fun j hj => List.mem_cons_of_mem i hj
    · rw [hup]
      exact fun j hj => hj
  obtain ⟨waits, hstanding, hwaits, hrunning⟩ := h.place
  have hplaced : ∀ s, Standing (fun _ => True) (fun _ _ => True)
      (if s = opts.streamId then waits else none)
      ((i.wants.request? s).toList ++ Link.posts Input.wants s rest) (l.node.desk.kept s)
      (Desk.told s (l.down.map Output.reply)) := by
    intro s
    have hold := hstanding s
    rcases hup with hup | ⟨hup, hnone⟩
    · rw [hup, Link.posts_cons] at hold
      exact hold
    · rw [hup] at hold
      rw [hnone s]
      exact hold
  have hnode : l.node = run config l.fed := h.recorded.node
  have hbegins : i.Begins opts.streamId
      (position opts.start (Log.answered config l.fed opts.streamId)) := by
    cases i with
    | read s cursor limits timeoutMs =>
        intro heq
        have hfirst := hplaced opts.streamId
        have hrequest : (Input.read s cursor limits timeoutMs).wants.request? opts.streamId =
            some ⟨cursor.getD Cursor.start, limits⟩ := if_pos heq
        rw [hrequest, if_pos rfl, Option.toList_some, List.singleton_append] at hfirst
        obtain ⟨hsome, -, hnone⟩ := hfirst.first
        rw [h.answered, hnone, List.append_nil]
        exact hwaits _ hsome
    | _ => trivial
  constructor
  case recorded =>
    exact Link.Recorded.feed (l := { l with up := rest }) ⟨h.recorded.node, h.recorded.sent⟩ i
  case stays => exact fun j hj => h.stays j (hrest j hj)
  case fed =>
    intro j hj
    rcases List.mem_append.mp hj with hj | hj
    · exact h.fed j hj
    · rw [List.mem_singleton.mp hj]
      exact hend
  case threaded =>
    exact (threaded_concat _ opts.start l.fed i).mpr ⟨h.threaded, hend _, hbegins⟩
  case mine => exact h.mine
  case place =>
    refine ⟨waits, fun s => ?_, hwaits, hrunning⟩
    have hpassed := LogNode.handle_passed (run_wf config l.fed) (run_tail config l.fed)
      (run_ranked config l.fed) (wants_stays hend s)
    rw [← hnode] at hpassed
    have hpass := (hplaced s).pass hpassed fun _ _ _ _ => trivial
    rw [← Desk.told_append, ← List.map_append] at hpass
    exact hpass
  case sent => exact h.sent
  case stopped => exact h.stopped
  case left =>
    obtain ⟨handed, hscript, hhanded⟩ := h.left
    refine ⟨handed, hscript, ?_⟩
    show handed.Sublist (l.fed ++ [i] ++ rest)
    rcases hup with hup | ⟨hup, -⟩
    · rw [List.append_assoc, List.singleton_append, ← hup]
      exact hhanded
    · refine hhanded.trans ?_
      rw [hup]
      exact (List.sublist_append_left _ _).append (List.Sublist.refl _)
  case due => exact h.due

theorem skip (h : Reading opts config l) {c : Client} {o : Output} {rest : List Output}
    (hc : l.client = .running c) (hdown : l.down = o :: rest) (ho : ∀ a, o ≠ .response a)
    {client : Party Client String} (hclient : client = .running c ∨
      client = .stopped c "producer_stop" ∧ ∃ reason, o = .producerStop reason) :
    Reading opts config
      { l with client := client, up := l.up ++ [], down := rest, taken := l.taken ++ [o] } := by
  have hstate : client.state = l.client.state := by
    rw [hc]
    rcases hclient with rfl | ⟨rfl, -⟩ <;> rfl
  have hresponses : responses (l.taken ++ [o]) = responses l.taken := by
    rw [responses_append]
    cases o with
    | response a => exact absurd rfl (ho a)
    | _ => exact List.append_nil _
  have htold : ∀ s, Desk.told s (l.down.map Output.reply) =
      Desk.told s (rest.map Output.reply) := by
    intro s
    rw [hdown, List.map_cons, Link.told_cons]
    cases o with
    | response a => exact absurd rfl (ho a)
    | _ => rfl
  obtain ⟨waits, hstanding, hwaits, hrunning⟩ := h.place
  rw [List.append_nil]
  constructor
  case recorded => exact h.recorded.listen hdown
  case stays => exact h.stays
  case fed => exact h.fed
  case threaded => exact h.threaded
  case mine =>
    intro a ha
    rcases List.mem_append.mp ha with ha | ha
    · exact h.mine a ha
    · exact absurd (List.mem_singleton.mp ha).symm (ho a)
  case place =>
    refine ⟨waits, fun s => ?_, fun w hw => ?_, fun c' hc' => ?_⟩
    · have hold := hstanding s
      rw [htold s] at hold
      exact hold
    · rw [hresponses]
      exact hwaits w hw
    · rcases hclient with rfl | ⟨rfl, -⟩
      · exact hrunning c' (hc.trans hc')
      · simp at hc'
  case sent =>
    intro c' hc'
    rw [hresponses]
    rcases hclient with rfl | ⟨rfl, -⟩
    · exact h.sent c' (hc.trans hc')
    · simp at hc'
  case stopped =>
    intro c' state hc'
    rcases hclient with rfl | ⟨rfl, reason, rfl⟩
    · simp at hc'
    · obtain ⟨-, rfl⟩ := Party.stopped.inj hc'
      exact .inl ⟨rfl, reason, by simp⟩
  case left =>
    rw [hstate]
    exact h.left
  case due =>
    rw [hstate]
    exact h.due

/-- A response that arrives is the one to the read under way, and nothing else is. -/
theorem hears (h : Reading opts config l) {a : Response} {rest : List Output}
    (hdown : l.down = .response a :: rest) :
    a.streamId = opts.streamId ∧ ∀ s, Standing (fun _ => True) (fun _ _ => True) (none : Option Want)
      (Link.posts Input.wants s l.up) (l.node.desk.kept s)
      (Desk.told s (rest.map Output.reply)) := by
  obtain ⟨waits, hstanding, -, -⟩ := h.place
  have hfirst := hstanding a.streamId
  rw [hdown, told_response, if_pos rfl, List.singleton_append] at hfirst
  obtain ⟨r, hsome, -, hquiet⟩ := hfirst.hear
  have hmine : a.streamId = opts.streamId := by
    by_contra hne
    rw [if_neg hne] at hsome
    simp at hsome
  refine ⟨hmine, fun s => ?_⟩
  by_cases heq : s = a.streamId
  · rw [heq]
    exact hquiet
  · have hother := hstanding s
    rw [hdown, told_response, if_neg (Ne.symm heq), List.nil_append,
      if_neg fun h => heq (h.trans hmine.symm)] at hother
    exact hother

theorem responses_concat (taken : List Output) (a : Response) :
    responses (taken ++ [.response a]) = responses taken ++ [a] := by
  rw [responses_append]
  rfl

/-- A response after which the client reads on. -/
theorem readOn (h : Reading opts config l) (hscript : ∀ i ∈ scripted opts, produces i = true)
    {c : Client} {a : Response} {rest : List Output} (hc : l.client = .running c)
    (hdown : l.down = .response a :: rest) :
    Reading opts config
      { l with
        client := (send opts { c with cursor := a.nextCursor.seq }).1
        up := l.up ++ (send opts { c with cursor := a.nextCursor.seq }).2
        down := rest
        taken := l.taken ++ [.response a] } := by
  obtain ⟨hmine, hquiet⟩ := h.hears hdown
  obtain ⟨c', due, hsend, hsends⟩ := send_spec opts { c with cursor := a.nextCursor.seq }
  obtain ⟨handed, hscripted, hhanded⟩ := h.left
  rw [hc] at hscripted
  have hleft : scripted opts = handed ++ (due ++ c'.left) := hscripted.trans (congrArg _ hsends.left)
  have hdue : ∀ i ∈ due, produces i = true := fun i hi => hscript i (by rw [hleft]; simp [hi])
  rw [hsend]
  constructor
  case recorded => exact h.recorded.listen hdown
  case stays =>
    intro i hi
    rcases List.mem_append.mp hi with hi | hi
    · exact h.stays i hi
    · exact stays_send hdue a.nextCursor.seq i hi
  case fed => exact h.fed
  case threaded => exact h.threaded
  case mine =>
    intro a' ha'
    rcases List.mem_append.mp ha' with ha' | ha'
    · exact h.mine a' ha'
    · obtain rfl := Output.response.inj (List.mem_singleton.mp ha')
      exact hmine
  case place =>
    refine ⟨some (wanted opts a.nextCursor.seq), fun s => ?_, fun w hw => ?_, fun c'' hc'' => ?_⟩
    · show Standing _ _ _ (Link.posts Input.wants s (l.up ++ readRequest opts _ :: due)) _ _
      rw [Link.posts_append, posts_send hdue]
      refine (hquiet s).renew ?_
      split
      · exact .asks _ trivial
      · exact .same none
    · rw [responses_concat, position_concat, ← Option.some.inj hw]
      rfl
    · obtain rfl := Party.running.inj hc''
      rw [hsends.cursor]
  case sent =>
    intro c'' hc''
    obtain rfl := Party.running.inj hc''
    rw [hsends.sent, responses_concat, List.length_append, List.length_singleton]
    exact congrArg (· + 1) (h.sent c hc)
  case stopped => exact fun c'' state hc'' => by simp at hc''
  case left =>
    refine ⟨handed ++ due, by rw [hleft, List.append_assoc]; rfl, ?_⟩
    show (handed ++ due).Sublist (l.fed ++ (l.up ++ readRequest opts _ :: due))
    rw [← List.append_assoc]
    exact hhanded.append (List.sublist_cons_self _ due)
  case due => exact hsends.next

theorem stop (h : Reading opts config l) {c : Client} {a : Response} {rest : List Output}
    (hc : l.client = .running c) (hdown : l.down = .response a :: rest) {state : String}
    (hline : line a.state = some state) :
    Reading opts config
      { l with
        client := .stopped c state, up := l.up ++ [], down := rest,
        taken := l.taken ++ [.response a] } := by
  obtain ⟨hmine, hquiet⟩ := h.hears hdown
  have hstate : (Party.stopped c state).state = l.client.state := by
    rw [hc]
    rfl
  rw [List.append_nil]
  constructor
  case recorded => exact h.recorded.listen hdown
  case stays => exact h.stays
  case fed => exact h.fed
  case threaded => exact h.threaded
  case mine =>
    intro a' ha'
    rcases List.mem_append.mp ha' with ha' | ha'
    · exact h.mine a' ha'
    · obtain rfl := Output.response.inj (List.mem_singleton.mp ha')
      exact hmine
  case place =>
    refine ⟨none, fun s => ?_, fun w hw => by simp at hw, fun c' hc' => by simp at hc'⟩
    rw [ite_self]
    exact hquiet s
  case sent => exact fun c' hc' => by simp at hc'
  case stopped =>
    intro c' state' hc'
    obtain ⟨-, rfl⟩ := Party.stopped.inj hc'
    exact .inr ⟨a, by rw [responses_concat, List.getLast?_concat], hline⟩
  case left =>
    rw [hstate]
    exact h.left
  case due =>
    rw [hstate]
    exact h.due

theorem listen (h : Reading opts config l) (hscript : ∀ i ∈ scripted opts, produces i = true)
    {c : Client} {o : Output} {rest : List Output} (hc : l.client = .running c)
    (hdown : l.down = o :: rest) :
    Reading opts config
      { l with
        client := (receive opts c o).1, up := l.up ++ (receive opts c o).2, down := rest,
        taken := l.taken ++ [o] } := by
  cases o with
  | response a =>
      rw [receive]
      cases hstate : a.state with
      | data => exact h.readOn hscript hc hdown
      | wouldBlock => exact h.readOn hscript hc hdown
      | expired => exact h.readOn hscript hc hdown
      | eof => exact h.stop hc hdown (by rw [hstate]; rfl)
      | closed => exact h.stop hc hdown (by rw [hstate]; rfl)
      | failed => exact h.stop hc hdown (by rw [hstate]; rfl)
  | producerStop reason => exact h.skip hc hdown (by simp) (.inr ⟨rfl, reason, rfl⟩)
  | setTimer token ms => exact h.skip hc hdown (by simp) (.inl rfl)
  | cancelTimer token => exact h.skip hc hdown (by simp) (.inl rfl)
  | diagnostic d => exact h.skip hc hdown (by simp) (.inl rfl)

theorem reader (h : Reading opts config l) :
    Reader (history config l.fed) l.node.floor opts.start (responses l.taken) := by
  have hnode : l.node = run config l.fed := h.recorded.node
  have hall := (run_reads config opts.streamId opts.start l.fed h.threaded).reader
  rw [h.answered] at hall
  rw [hnode]
  exact hall.left_of_append

theorem cursor (h : Reading opts config l) {c : Client} (hc : l.client = .running c) :
    c.cursor = position opts.start (responses l.taken) := by
  obtain ⟨waits, -, hwaits, hrunning⟩ := h.place
  exact hwaits _ (hrunning c hc)

theorem ended (h : Reading opts config l) {c : Client} {state : String}
    (hc : l.client = .stopped c state) :
    state = "producer_stop" ∧ l.node.isClosed = true ∨
      ∃ last, (responses l.taken).getLast? = some last ∧ line last.state = some state ∧
        l.node.window.lifecycle ≠ .live ∧
        last.nextCursor.seq = (history config l.fed).length := by
  have hnode : l.node = run config l.fed := h.recorded.node
  rcases h.stopped c state hc with ⟨rfl, reason, hstop⟩ | ⟨last, hlast, hline⟩
  · have hsaid : .producerStop reason ∈
        (outputs LogNode.handle (LogNode.new config) l.fed).flatten := by
      rw [h.recorded.sent]
      exact List.mem_append_left _ hstop
    rw [hnode]
    exact .inl ⟨rfl, run_stopped config h.fed hsaid⟩
  · refine .inr ⟨last, hlast, hline, ?_⟩
    rw [hnode]
    refine run_final config opts.streamId h.fed ?_ hline
    rw [h.answered]
    exact List.mem_append_left _ (List.mem_of_getLast? hlast)

/-- A client that waits while nothing is under way waits at the head. -/
theorem idle (h : Reading opts config l) {c : Client} (hc : l.client = .running c)
    (hup : l.up = []) (hdown : l.down = []) :
    l.node.window.lifecycle = .live ∧ c.cursor = (history config l.fed).length ∧
      ∃ held, l.node.sessions.heldOf opts.streamId = some held ∧ held.cursor.seq = c.cursor := by
  have hnode : l.node = run config l.fed := h.recorded.node
  have hlength : (run config l.fed).head = (history config l.fed).length :=
    (run_holds config l.fed).head_eq
  obtain ⟨waits, hstanding, hwaits, hrunning⟩ := h.place
  obtain rfl := hrunning c hc
  have hrest := hstanding opts.streamId
  rw [if_pos rfl, hup, hdown] at hrest
  have hdesk := hrest.at_desk
  rw [LogNode.desk_kept, Option.map_map] at hdesk
  obtain ⟨held, hheld, hwant⟩ := Option.map_eq_some_iff.mp hdesk.symm
  have hcursor : held.cursor = ⟨c.cursor⟩ := congrArg Want.cursor hwant
  rw [hnode] at hheld ⊢
  obtain ⟨hlive, hhead⟩ := run_tail config l.fed opts.streamId held hheld
  rw [hlength, hcursor] at hhead
  exact ⟨hlive, hhead, held, hheld, by rw [hcursor]⟩

end Reading

theorem opening_reading (opts : Opts) (hscript : ∀ i ∈ scripted opts, produces i = true)
    (config : Config) : Reading opts config (Link.opening (start opts) (LogNode.new config)) := by
  obtain ⟨c', due, hsend, hsends⟩ := send_spec opts (Client.new opts)
  have hleft : scripted opts = due ++ c'.left := by
    rw [← hsends.left, scripted, Client.left, Client.new, Option.map_map]
    rfl
  have hdue : ∀ i ∈ due, produces i = true := fun i hi => hscript i (by rw [hleft]; simp [hi])
  have hposition : position opts.start (responses []) = opts.start := rfl
  rw [start, hsend, Link.opening]
  refine ⟨⟨rfl, rfl⟩, stays_send hdue opts.start, by simp, trivial, by simp,
    ⟨some (wanted opts opts.start), fun s => ?_, fun w hw => ?_, fun c hc => ?_⟩, fun c hc => ?_,
    fun c state hc => by simp at hc, ⟨due, hleft, List.sublist_cons_self _ due⟩, hsends.next⟩
  · have hkept : (LogNode.new config).desk.kept s = none := by rw [LogNode.desk_new]; rfl
    have hquiet : Standing (fun _ => True) (fun _ _ => True) (none : Option Want) []
        ((LogNode.new config).desk.kept s)
        (Desk.told s (([] : List Output).map Output.reply)) := by
      rw [hkept]
      exact .quiet
    show Standing _ _ _ (Link.posts Input.wants s (readRequest opts opts.start :: due)) _ _
    rw [posts_send hdue]
    have hrenews : Renews (fun _ => True) (none : Option Want)
        (if s = opts.streamId then some (wanted opts opts.start) else none)
        (if s = opts.streamId then [wanted opts opts.start] else []) := by
      split
      · exact .asks _ trivial
      · exact .same none
    exact hquiet.renew hrenews
  · rw [hposition, ← Option.some.inj hw]
    rfl
  · obtain rfl := Party.running.inj hc
    rw [hsends.cursor]
    rfl
  · obtain rfl := Party.running.inj hc
    exact hsends.sent

theorem session_reading (opts : Opts) (hscript : ∀ i ∈ scripted opts, produces i = true)
    (config : Config) {moves : List (Move Input)}
    (hmoves : ∀ i, .prompt i ∈ moves → prompts i = true) :
    Reading opts config (session opts config moves) := by
  refine Link.run_induction (P := Reading opts config) (opening_reading opts hscript config)
    (fun l i rest h hup => h.feed (.inl hup) (h.stays i (by simp [hup])))
    (fun l i h hi => h.feed (.inr ⟨rfl, fun s => ?_⟩) fun s => ?_)
    (fun l c o rest h hc hdown => h.listen hscript hc hdown) hmoves
  · cases i <;> first | rfl | simp [prompts, produces] at hi
  · rintro rfl
    simp [prompts, produces] at hi

/-! ## The session -/

/-- **The log client.**  Whatever the pace of the client and the node, whatever is pushed,
sealed, closed and evicted meanwhile, and wherever the client begins: while it runs exactly
one read of it is under way; its transcript is a reader's, in which records come in order
and at most once and only evicted ones are left out; and its script has gone out in order
as far as the reads it counts. -/
theorem log_client (opts : Opts) (hscript : ∀ i ∈ scripted opts, produces i = true)
    (config : Config) (moves : List (Move Input))
    (hmoves : ∀ i, .prompt i ∈ moves → prompts i = true) :
    let l := session opts config moves
    (∀ c, l.client = .running c → outstanding opts l = 1 ∧
      c.cursor = position opts.start (responses l.taken) ∧
      c.sent = (responses l.taken).length + 1) ∧
    Reader (history config l.fed) l.node.floor opts.start (responses l.taken) ∧
    (∀ first rest, responses l.taken = first :: rest →
      let since := slice (history config l.fed) first.nextCursor.seq
        (position first.nextCursor.seq rest)
      (rest.flatMap Response.records).Sublist since ∧
      ∀ record ∈ since, record ∉ rest.flatMap Response.records → record.seq < l.node.floor) ∧
    (∃ handed, scripted opts = handed ++ l.client.state.left ∧
      handed.Sublist (l.fed ++ l.up)) ∧
    ∀ p inj, l.client.state.pending = some p → p.next = some inj →
      l.client.state.sent < inj.afterFrames := by
  intro l
  have hreading : Reading opts config l := session_reading opts hscript config hmoves
  have hreader := hreading.reader
  refine ⟨fun c hc => ?_, hreader, fun first rest hheard => ?_, hreading.left, hreading.due⟩
  · obtain ⟨waits, hstanding, hwaits, hrunning⟩ := hreading.place
    obtain rfl := hrunning c hc
    have hcount := (hstanding opts.streamId).count
    rw [if_pos rfl] at hcount
    refine ⟨?_, hreading.cursor hc, hreading.sent c hc⟩
    have hkept : ((l.node.desk.kept opts.streamId)).toList.length =
        (l.node.sessions.heldOf opts.streamId).toList.length := by
      rw [LogNode.desk_kept]
      cases l.node.sessions.heldOf opts.streamId <;> rfl
    have hdown : ∀ a, .response a ∈ l.down → a.streamId = opts.streamId := hreading.mine_down
    rw [outstanding, responses_eq_told hdown, ← hkept]
    exact hcount
  · intro since
    rw [hheard] at hreader
    obtain ⟨-, hsublist, hmissed⟩ := chain_records hreader.chain
    refine ⟨hsublist, fun record hrecord habsent => ?_⟩
    by_contra hfloor
    exact habsent (hmissed record hrecord (not_lt.mp hfloor))

/-- What the client's own script evicts under it is passed over. -/
theorem log_client_evicted :
    let opts : Opts := ⟨"s", 0, none, some ⟨[⟨1, [.push [1]]⟩, ⟨2, [.push [3], .seal]⟩]⟩⟩
    let l := session opts ⟨.lastReader⟩ [.serve, .serve, .hear, .prompt (.push [2]),
      .prompt (.evict 2), .serve, .serve, .serve, .hear, .serve, .hear, .serve, .hear]
    (responses l.taken).map (fun r => (r.records.map Record.seq, r.nextCursor.seq)) =
        [([1], 1), ([], 2), ([3], 3), ([], 3)] ∧
      l.client.outcome = some "eof" ∧
      Reader (history ⟨.lastReader⟩ l.fed) l.node.floor 0 (responses l.taken) := by
  intro opts l
  have hclient := log_client opts (by decide) ⟨.lastReader⟩ [.serve, .serve, .hear,
    .prompt (.push [2]), .prompt (.evict 2), .serve, .serve, .serve, .hear, .serve, .hear,
    .serve, .hear] (by simp [prompts, produces])
  exact ⟨by decide, by decide, hclient.2.1⟩

/-- **The end of the log client.**  A final line other than `producer_stop` says that the
log is over and that the last response was at its end; `producer_stop` says that it was
closed.  When nothing is in the pipes the client has ended, or the log is live and the
client waits at its head. -/
theorem log_client_ends (opts : Opts) (hscript : ∀ i ∈ scripted opts, produces i = true)
    (config : Config) (moves : List (Move Input))
    (hmoves : ∀ i, .prompt i ∈ moves → prompts i = true) :
    let l := session opts config moves
    (∀ c state, l.client = .stopped c state →
      state = "producer_stop" ∧ l.node.isClosed = true ∨
      ∃ last, (responses l.taken).getLast? = some last ∧ line last.state = some state ∧
        l.node.window.lifecycle ≠ .live ∧
        last.nextCursor.seq = (history config l.fed).length) ∧
    (∀ c, l.client = .running c → l.up = [] → l.down = [] →
      l.node.window.lifecycle = .live ∧ c.cursor = (history config l.fed).length ∧
      ∃ held, l.node.sessions.heldOf opts.streamId = some held ∧ held.cursor.seq = c.cursor) := by
  intro l
  have hreading : Reading opts config l := session_reading opts hscript config hmoves
  exact ⟨fun c state => hreading.ended, fun c => hreading.idle⟩

/-- A close that overtakes the client's read: it ends before it has heard the last record. -/
theorem log_client_ends_overtaken :
    let opts : Opts := ⟨"s", 0, none, none⟩
    let l := session opts ⟨.lastReader⟩
      [.prompt (.push [1]), .prompt (.close none), .hear, .serve]
    l.client.outcome = some "producer_stop" ∧ responses l.taken = [] ∧
      history ⟨.lastReader⟩ l.fed = [[1]] ∧
      ∀ c state, l.client = .stopped c state →
        state = "producer_stop" ∧ l.node.isClosed = true ∨
        ∃ last, (responses l.taken).getLast? = some last ∧ line last.state = some state ∧
          l.node.window.lifecycle ≠ .live ∧
          last.nextCursor.seq = (history ⟨.lastReader⟩ l.fed).length := by
  intro opts l
  have hends := log_client_ends opts (by decide) ⟨.lastReader⟩
    [.prompt (.push [1]), .prompt (.close none), .hear, .serve] (by simp [prompts, produces])
  exact ⟨by decide, by decide, by decide, hends.1⟩

end TautShape.LogClient
