import TautShape.Log.Exchange
/-!
# Delivery against the history

The history of a run is what was pushed while the log was live.  The window keeps
the records of the history above its floor, so an answer with data, given at once
or released later, is the slice of the history between the cursor of its request
and its next cursor.
-/

namespace TautShape.Log

open TautShape.Lib

/-! ## What was pushed -/

def LogNode.accepted (n : LogNode) : Input → List Bytes
  | .push payload => if n.window.lifecycle = .live then [payload] else []
  | _ => []

def historyFrom : LogNode → List Input → List Bytes
  | _, [] => []
  | n, input :: rest => n.accepted input ++ historyFrom (n.handle input).1 rest

/-- Everything pushed while the log of a run was live. -/
def history (config : Config) (inputs : List Input) : List Bytes :=
  historyFrom (LogNode.new config) inputs

theorem historyFrom_append (n : LogNode) (front back : List Input) :
    historyFrom n (front ++ back) =
      historyFrom n front ++ historyFrom (after LogNode.handle n front) back := by
  induction front generalizing n with
  | nil => rfl
  | cons input front ih =>
      rw [List.cons_append, historyFrom, ih, historyFrom, List.append_assoc, after_cons]

theorem history_concat (config : Config) (front : List Input) (input : Input) :
    history config (front ++ [input]) =
      history config front ++ (run config front).accepted input := by
  rw [history, historyFrom_append, historyFrom, historyFrom, List.append_nil]
  rfl

theorem history_extends (config : Config) {front inputs : List Input} (h : front <+: inputs) :
    history config front <+: history config inputs := by
  obtain ⟨back, rfl⟩ := h
  rw [history, history, historyFrom_append]
  exact List.prefix_append _ _

/-! ## The window of a run -/

theorem Books.releaseHeld_window {n : LogNode} {L : LogLedger} (h : Books n L) :
    n.releaseHeld.1.window = n.window := by
  obtain ⟨_, -, -, hwindow, -⟩ := h.sweep n.sessions.heldInCreationOrder
  exact hwindow

def Window.react (w : Window) : Input → Window
  | .push payload => if w.lifecycle = .live then w.push payload else w
  | .seal => w.seal
  | .close error => w.close error
  | .evict upToSeq => w.evict upToSeq
  | .read .. | .endStream _ | .timerExpired _ => w

theorem Books.window_handle {n : LogNode} {L : LogLedger} (h : Books n L) (input : Input) :
    (n.handle input).1.window = n.window.react input := by
  cases input with
  | push payload =>
      simp only [LogNode.handle, LogNode.onPush, Window.react]
      split
      · rename_i hlive
        rw [if_pos hlive, (books_window h (n.window.push payload)).releaseHeld_window]
      · rename_i hlate
        rw [if_neg hlate]
  | «seal» => exact (books_window h n.window.seal).releaseHeld_window
  | close error =>
      simp only [LogNode.handle, LogNode.onClose, Window.react]
      split
      · rename_i hclosed
        simp only [Window.close, hclosed]
      · rename_i hfailed
        simp only [Window.close, hfailed]
      · rw [(books_window h (n.window.close error)).releaseHeld_window]
  | read id cursor limits timeoutMs => exact n.onRead_window id cursor limits timeoutMs
  | endStream id => exact n.onEndStream_window id
  | timerExpired token => exact n.onTimerExpired_window token
  | evict upToSeq => rfl

theorem Books.holds {n : LogNode} {L : LogLedger} (h : Books n L) {history : List Bytes}
    (hholds : n.window.Holds history) (input : Input) :
    (n.handle input).1.window.Holds (history ++ n.accepted input) := by
  rw [h.window_handle input]
  cases input with
  | push payload =>
      simp only [Window.react, LogNode.accepted]
      split
      · exact hholds.push payload
      · rw [List.append_nil]
        exact hholds
  | «seal» =>
      simp only [LogNode.accepted, List.append_nil]
      exact hholds.seal
  | close error =>
      simp only [LogNode.accepted, List.append_nil]
      exact hholds.close error
  | evict upToSeq =>
      simp only [LogNode.accepted, List.append_nil]
      exact hholds.evict upToSeq
  | read id cursor limits timeoutMs =>
      simp only [LogNode.accepted, List.append_nil]
      exact hholds
  | endStream id =>
      simp only [LogNode.accepted, List.append_nil]
      exact hholds
  | timerExpired token =>
      simp only [LogNode.accepted, List.append_nil]
      exact hholds

theorem run_holds (config : Config) (inputs : List Input) :
    (run config inputs).window.Holds (history config inputs) := by
  induction inputs using List.reverseRecOn with
  | nil => exact Window.holds_new
  | append_singleton front input ih =>
      obtain ⟨L, -, hbooks, -⟩ := run_books config front
      have hrun : run config (front ++ [input]) = ((run config front).handle input).1 :=
        after_concat _ _ _ _
      rw [hrun, history_concat]
      exact hbooks.holds ih input

/-! ## Answers -/

namespace LogNode

variable {n : LogNode} {id : StreamId} {r : Request} {response : Response}

/-- An answer with data is a scan at a cursor inside the window. -/
theorem Answers.data (h : n.Answers id r response) (hdata : response.state = .data) :
    r.position.seq < n.head ∧ n.floor ≤ r.position.seq + 1 ∧
      response.records = (n.window.scan r.position.seq r.limits).1 ∧
      response.nextCursor.seq = (n.window.scan r.position.seq r.limits).2 := by
  rcases h with h | rfl
  · have hspec := n.classify_spec r.position
    unfold answerOf at h
    generalize n.classify r.position = resolution at h hspec
    cases hspec with
    | data hhead hfloor =>
        obtain rfl := Option.some.inj h
        exact ⟨hhead, hfloor, rfl, rfl⟩
    | terminal _ state error hstate =>
        obtain rfl := Option.some.inj h
        simp only at hdata
        simp [hdata] at hstate
    | ahead _ =>
        obtain rfl := Option.some.inj h
        simp at hdata
    | behind _ _ =>
        obtain rfl := Option.some.inj h
        simp at hdata
    | caughtUpLive _ _ => simp at h
  · simp at hdata

/-- Any other answer leaves the reader where it was, unless its cursor expired. -/
theorem Answers.idle (h : n.Answers id r response) (hdata : response.state ≠ .data)
    (hexpired : response.state ≠ .expired) :
    response.records = [] ∧ response.nextCursor = r.position := by
  rcases h with h | rfl
  · unfold answerOf at h
    cases hcase : n.classify r.position with
    | data =>
        rw [hcase] at h
        obtain rfl := Option.some.inj h
        exact absurd rfl hdata
    | terminal state error =>
        rw [hcase] at h
        obtain rfl := Option.some.inj h
        exact ⟨rfl, rfl⟩
    | expired next =>
        rw [hcase] at h
        obtain rfl := Option.some.inj h
        exact absurd rfl hexpired
    | caughtUpLive => simp [hcase] at h
  · exact ⟨rfl, rfl⟩

theorem Answers.data_slice {history later : List Bytes} (hholds : n.window.Holds history)
    (hlater : history <+: later) (h : n.Answers id r response) (hdata : response.state = .data) :
    response.records = slice later r.position.seq response.nextCursor.seq ∧
      r.position.seq ≤ response.nextCursor.seq ∧ response.nextCursor.seq ≤ later.length := by
  obtain ⟨hhead, hfloor, hrecords, hnext⟩ := h.data hdata
  rw [head, hholds.head_eq] at hhead
  obtain ⟨hscan, hle, hbound⟩ := hholds.scan_slice hfloor hhead.le r.limits
  rw [← hnext] at hscan hle hbound
  refine ⟨?_, hle, hbound.trans hlater.length_le⟩
  rw [hrecords, hscan, slice_of_extends hlater hbound]

theorem Answers.slice {history later : List Bytes} (hholds : n.window.Holds history)
    (hlater : history <+: later) (h : n.Answers id r response)
    (hexpired : response.state ≠ .expired) :
    response.records = slice later r.position.seq response.nextCursor.seq ∧
      r.position.seq ≤ response.nextCursor.seq := by
  by_cases hdata : response.state = .data
  · obtain ⟨hrecords, hle, -⟩ := h.data_slice hholds hlater hdata
    exact ⟨hrecords, hle⟩
  · obtain ⟨hrecords, hnext⟩ := h.idle hdata hexpired
    rw [hrecords, hnext, slice_self]
    exact ⟨rfl, le_rfl⟩

end LogNode

/-! ## Readers -/

def Delivered (L : LogLedger) (r : Request) (response : Response) : Prop :=
  ∃ f ∈ L.settled, f.request = r ∧ f.fate = .answered response

/-- Reads that each start at the next cursor of the one before, none of them expired. -/
def Threads : Cursor → List (Request × Response) → Cursor → Prop
  | first, [], last => first = last
  | first, (r, response) :: rest, last =>
      r.position = first ∧ response.state ≠ .expired ∧ Threads response.nextCursor rest last

theorem threads_slice {history : List Bytes} {first last : Cursor}
    {reads : List (Request × Response)}
    (hslice : ∀ p ∈ reads, p.2.state ≠ .expired →
      p.2.records = slice history p.1.position.seq p.2.nextCursor.seq ∧
        p.1.position.seq ≤ p.2.nextCursor.seq)
    (hthreads : Threads first reads last) :
    reads.flatMap (·.2.records) = slice history first.seq last.seq ∧ first.seq ≤ last.seq := by
  induction reads generalizing first with
  | nil =>
      obtain rfl : first = last := hthreads
      exact ⟨(slice_self history _).symm, le_rfl⟩
  | cons p rest ih =>
      obtain ⟨r, response⟩ := p
      obtain ⟨rfl, hexpired, hrest⟩ := hthreads
      obtain ⟨hrecords, hle⟩ := hslice (r, response) List.mem_cons_self hexpired
      obtain ⟨hmore, hle'⟩ :=
        ih (fun p hp => hslice p (List.mem_cons_of_mem _ hp)) hrest
      simp only at hrecords hle
      refine ⟨?_, hle.trans hle'⟩
      calc ((r, response) :: rest).flatMap (·.2.records)
          = response.records ++ rest.flatMap (·.2.records) := List.flatMap_cons
        _ = slice history r.position.seq response.nextCursor.seq ++
              slice history response.nextCursor.seq last.seq := by rw [hrecords, hmore]
        _ = slice history r.position.seq last.seq := slice_append hle hle'

theorem Delivered.answers {config : Config} {inputs : List Input} {L : LogLedger}
    (hfair : ∀ f ∈ L.settled, ∃ front, front <+: inputs ∧ Fair (run config front) f)
    {r : Request} {response : Response} (h : Delivered L r response) :
    ∃ front id, front <+: inputs ∧ (run config front).Answers id r response := by
  obtain ⟨f, hf, rfl, hfate⟩ := h
  obtain ⟨front, hfront, hthen⟩ := hfair f hf
  exact ⟨front, f.stream, hfront, hthen response hfate⟩

/-- **Log delivery is a slice of the history.**  In every state the head counts the
history, the window holds it above the floor and late pushes are refused; every
answer with data, at once or from a held read, is the slice its cursors say, so reads
threaded by next cursor see neither duplicate nor gap. -/
theorem delivery_is_slice (config : Config) (inputs : List Input) :
    let n := run config inputs
    let h := history config inputs
    let events := exchange config inputs
    n.head = h.length ∧
      n.window.records = slice h (max 1 n.floor - 1) n.head ∧
      (n.window.lifecycle ≠ .live → ∀ payload,
        n.handle (.push payload) = (n, [.diagnostic ⟨.warn, .pushAfterTerminal⟩])) ∧
      ∃ L : LogLedger, Ledger.audit events = some L ∧
        L.Accounts (Ledger.asked events) (Ledger.expiries events) (Ledger.replies events) ∧
        (∀ r response, Delivered L r response → response.state = .data →
          response.records = slice h r.position.seq response.nextCursor.seq ∧
            r.position.seq ≤ response.nextCursor.seq ∧ response.nextCursor.seq ≤ h.length) ∧
        ∀ first reads last, (∀ p ∈ reads, Delivered L p.1 p.2) → Threads first reads last →
          reads.flatMap (·.2.records) = slice h first.seq last.seq := by
  intro n h events
  have hholds : n.window.Holds h := run_holds config inputs
  obtain ⟨L, haudit, -, hfair⟩ := run_books config inputs
  refine ⟨hholds.head_eq, ?_, ?_, L, haudit, Ledger.audit_accounts haudit, ?_, ?_⟩
  · have hfloor : max 1 n.floor - 1 = n.floor - 1 := by omega
    have hall : (numbered h).take n.head = numbered h := by
      rw [LogNode.head, hholds.head_eq, List.take_of_length_le (length_numbered h).le]
    calc n.window.records
        = (numbered h).drop (n.floor - 1) := hholds.records_eq
      _ = slice h (max 1 n.floor - 1) n.head := by rw [slice, hall, hfloor]
  · intro hlate payload
    simp only [LogNode.handle, LogNode.onPush]
  · intro r response hdelivered hdata
    obtain ⟨front, id, hfront, hanswers⟩ := hdelivered.answers hfair
    exact hanswers.data_slice (run_holds config front) (history_extends config hfront) hdata
  · intro first reads last hdelivered hthreads
    refine (threads_slice (fun p hp hexpired => ?_) hthreads).1
    obtain ⟨front, id, hfront, hanswers⟩ := (hdelivered p hp).answers hfair
    exact hanswers.slice (run_holds config front) (history_extends config hfront) hexpired

end TautShape.Log
