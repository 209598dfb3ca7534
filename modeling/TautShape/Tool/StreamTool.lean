import TautShape.Tool.DriveClient
import TautShape.Stream.Transcript
/-!
# The stream client

The reading side of the tool against a stream node.  A stream is read again after data,
unless it is to pause, and once more after it was dropped, if it is to reconnect.  Paused
streams are read again when there was data often enough.  Both run at their own pace, and
the node is prompted by its producer script.  The frames are their decoded messages.
-/

namespace TautShape.StreamTool

open TautShape.Lib TautShape.Stream TautShape.Held
open TautShape.DriveClient (Exit Fair)
open TautShape.Log (Bytes StopWhen)

/-- Of the set of paused streams only its members are asked for. -/
structure ClientOpts where
  streamIds : List String
  maxRecords : Option Int
  maxBytes : Option Int
  timeoutMs : Option Int
  reconnectDropped : Bool
  pauseStreamIds : List String
  resumeAfterData : Option Nat

/-- The collections and the counter of `drive_client`. -/
structure Client where
  active : BTreeSet String
  paused : BTreeSet String
  reconnected : BTreeSet String
  dataResponses : Nat

variable (opts : ClientOpts)

def writeRead (streamId : String) : StreamInput :=
  .read streamId ⟨opts.maxRecords, opts.maxBytes, opts.timeoutMs⟩

def loop (c : Client) (written : List StreamInput) : Party Client Exit × List StreamInput :=
  DriveClient.loop Client.active (fun _ => "done") c written

def Client.new : Client := ⟨Std.ExtTreeSet.ofList opts.streamIds compare, ∅, ∅, 0⟩

def start : Party Client Exit × List StreamInput :=
  loop (Client.new opts) (opts.streamIds.map (writeRead opts))

/-- There was data often enough for the paused streams to go on. -/
def resumes (dataResponses : Nat) : Bool := opts.resumeAfterData.any fun limit => dataResponses ≥ limit

/-- Data: the stream is read again or pauses, and then all that pause may go on. -/
def receiveData (c : Client) (streamId : String) : Client × List StreamInput :=
  let dataResponses := c.dataResponses + 1
  let (paused, written) :=
    if opts.pauseStreamIds.contains streamId then (c.paused.insert streamId, [])
    else (c.paused, [writeRead opts streamId])
  if resumes opts dataResponses then
    ({ c with dataResponses := dataResponses, paused := ∅ },
      written ++ paused.toList.map (writeRead opts))
  else ({ c with dataResponses := dataResponses, paused := paused }, written)

def receive (c : Client) : StreamOutput → Party Client Exit × List StreamInput
  | .readResponse response =>
      if !c.active.contains response.streamId then (.stopped c .refused, [])
      else
        match response.state with
        | .data =>
            let (c, written) := receiveData opts c response.streamId
            loop c written
        | .dropped =>
            if opts.reconnectDropped && !c.reconnected.contains response.streamId then
              loop { c with reconnected := c.reconnected.insert response.streamId }
                [writeRead opts response.streamId]
            else loop { c with active := c.active.erase response.streamId } []
        | .wouldBlock | .eof | .closed | .failed =>
            loop { c with active := c.active.erase response.streamId } []
  | .setTimer _ _ | .cancelTimer _ | .producerStop _ | .diagnostic _ => loop c []

/-- The read that the client wrote last for a stream, unless the stream pauses. -/
def asks (c : Client) (streamId : String) : Option Request :=
  if c.paused.contains streamId then none
  else some ⟨opts.maxRecords, opts.maxBytes, opts.timeoutMs⟩

abbrev expects (c : Client) (streamId : String) : Option Request :=
  DriveClient.expects Client.active (asks opts) c streamId

/-- What the node reads from its script, beside the reads of the client: what the producer
does, and timers that run out. -/
def prompts : StreamInput → Bool
  | .push _ | .seal | .close _ | .timerExpired _ => true
  | .read _ _ | .endStream _ => false

def session (capacityRecords : Nat) (capacity_pos : 0 < capacityRecords) (stopWhen : StopWhen)
    (moves : List (Move StreamInput)) : Link Client Exit StreamNode StreamInput StreamOutput :=
  (Link.opening (start opts) (StreamNode.new capacityRecords capacity_pos stopWhen)).run
    StreamNode.handle (receive opts) moves

abbrev heard (streamId : String) (out : List StreamOutput) : List StreamReadResponse :=
  DriveClient.heard StreamReadResponse.streamId streamId out

abbrev outstanding (l : Link Client Exit StreamNode StreamInput StreamOutput) (s : String) : Nat :=
  DriveClient.outstanding StreamInput.ask StreamReadResponse.streamId StreamNode.heldOf l s

def isDataFrame : StreamOutput → Bool
  | .readResponse response => response.state = .data
  | _ => false

variable {opts}

/-! ## What the client knows -/

def isDropped (a : StreamReadResponse) : Bool := a.state = .dropped

def Rested (taken : List StreamOutput) (s : String) : Prop :=
  ∃ a, (heard s taken).getLast? = some a ∧ a.state ≠ .data

/-- A stream is dropped at most once before it is left for good, and once after that it
came back. -/
structure Has (opts : ClientOpts) (_ : List StreamInput) (taken : List StreamOutput) (c : Client) :
    Prop where
  listed : ∀ s, s ∈ c.active → s ∈ opts.streamIds
  rest : ∀ s ∈ opts.streamIds, s ∉ c.active → Rested taken s
  paused : ∀ s, s ∈ c.paused → s ∈ c.active ∧ s ∈ opts.pauseStreamIds ∧
    ∃ a, (heard s taken).getLast? = some a ∧ a.state = .data
  resumed : resumes opts c.dataResponses = true → c.paused = ∅
  counted : c.dataResponses = taken.countP isDataFrame
  drops : ∀ s, (heard s taken).countP isDropped ≤
    (if s ∈ c.reconnected then 1 else 0) + if s ∈ c.active then 0 else 1
  reconnects : ∀ s, s ∈ c.reconnected → opts.reconnectDropped = true

def request (opts : ClientOpts) : Request := ⟨opts.maxRecords, opts.maxBytes, opts.timeoutMs⟩

theorem posts_writeRead (s streamId : String) :
    Link.posts StreamInput.ask s [writeRead opts streamId] =
      if streamId = s then [request opts] else [] := by
  by_cases heq : streamId = s <;>
    simp [Link.posts, writeRead, StreamInput.ask, Ask.request?, heq, request]

theorem posts_map {ids : List String} (hnodup : ids.Nodup) (s : String) :
    Link.posts StreamInput.ask s (ids.map (writeRead opts)) =
      if s ∈ ids then [request opts] else [] := by
  have hothers : ∀ s' ∈ ids, s' ≠ s →
      ((fun i => (StreamInput.ask i).request? s) ∘ writeRead opts) s' = none :=
    fun s' _ hne => if_neg hne
  have hpost : ((fun i => (StreamInput.ask i).request? s) ∘ writeRead opts) s =
      some (request opts) := if_pos rfl
  rw [Link.posts, List.filterMap_map]
  split
  · rename_i hs
    rw [filterMap_eq_toList hnodup hs hothers, hpost]
    rfl
  · rename_i hs
    exact List.filterMap_eq_nil_iff.mpr fun s' hs' => hothers s' hs' fun heq => hs (heq ▸ hs')

theorem asks_eq (c : Client) (s : String) :
    asks opts c s = if s ∈ c.paused then none else some (request opts) := by
  rw [asks]
  rfl

/-! ## Data -/

section Data

variable {c : Client} {s : String}

theorem data_active : (receiveData opts c s).1.active = c.active := by
  rw [receiveData]
  split
  split <;> rfl

theorem data_reconnected : (receiveData opts c s).1.reconnected = c.reconnected := by
  rw [receiveData]
  split
  split <;> rfl

theorem data_responses : (receiveData opts c s).1.dataResponses = c.dataResponses + 1 := by
  rw [receiveData]
  split
  split <;> rfl

theorem data_paused (s' : String) : s' ∈ (receiveData opts c s).1.paused ↔
    resumes opts (c.dataResponses + 1) = false ∧
      (s' ∈ c.paused ∨ s' = s ∧ opts.pauseStreamIds.contains s = true) := by
  rw [receiveData]
  cases hresumes : resumes opts (c.dataResponses + 1) with
  | true => simp
  | false =>
      cases hpause : opts.pauseStreamIds.contains s with
      | true =>
          simp only [if_true, Bool.false_eq_true, if_false, mem_insert_set, true_and, and_true]
          rw [or_comm, @eq_comm _ s s']
      | false => simp

/-- Who is read after data: the stream, or all that paused. -/
theorem data_posts (hpaused : s ∉ c.paused) (s' : String) :
    Link.posts StreamInput.ask s' (receiveData opts c s).2 =
      if s' ∉ (receiveData opts c s).1.paused ∧ (s' = s ∨ s' ∈ c.paused) then [request opts]
      else [] := by
  have hnodup : ∀ set : BTreeSet String, set.toList.Nodup := toList_nodup
  simp only [data_paused]
  rw [receiveData]
  cases hresumes : resumes opts (c.dataResponses + 1) with
  | true =>
      cases hpause : opts.pauseStreamIds.contains s with
      | true =>
          simp only [if_true, List.nil_append, posts_map (hnodup _), Std.ExtTreeSet.mem_toList,
            mem_insert_set]
          simp [eq_comm]
      | false =>
          simp only [Bool.false_eq_true, if_false, if_true, Link.posts_append, posts_writeRead,
            posts_map (hnodup _), Std.ExtTreeSet.mem_toList]
          by_cases heq : s = s'
          · subst heq
            simp [hpaused]
          · simp [heq, Ne.symm heq]
  | false =>
      cases hpause : opts.pauseStreamIds.contains s with
      | true =>
          simp only [if_true, Bool.false_eq_true, if_false]
          have hnone : ¬ (¬ (True ∧ (s' ∈ c.paused ∨ s' = s ∧ True)) ∧ (s' = s ∨ s' ∈ c.paused)) := by
            tauto
          rw [if_neg (by simpa using hnone)]
          rfl
      | false =>
          simp only [Bool.false_eq_true, if_false, posts_writeRead]
          by_cases heq : s = s'
          · subst heq
            simp [hpaused]
          · by_cases hin : s' ∈ c.paused <;> simp [heq, Ne.symm heq, hin]

theorem data_reads {i : StreamInput} (hi : i ∈ (receiveData opts c s).2) :
    ∃ s r, i.ask = .read s r := by
  have hread : ∃ streamId, i = writeRead opts streamId := by
    rw [receiveData] at hi
    simp only at hi
    split at hi <;> split at hi <;> simp at hi <;> grind
  obtain ⟨streamId, rfl⟩ := hread
  exact ⟨_, _, rfl⟩

end Data

/-! ## Every frame -/

section Frames

variable {fed : List StreamInput} {taken : List StreamOutput} {c : Client}

theorem Has.append (h : Has opts fed taken c) (more : List StreamInput) :
    Has opts (fed ++ more) taken c :=
  ⟨h.listed, h.rest, h.paused, h.resumed, h.counted, h.drops, h.reconnects⟩

theorem heard_answered (s : String) (taken : List StreamOutput) (a : StreamReadResponse) :
    heard s (taken ++ [.readResponse a]) =
      heard s taken ++ if a.streamId = s then [a] else [] :=
  calc heard s (taken ++ [.readResponse a]) = heard s taken ++ heard s [.readResponse a] :=
        DriveClient.heard_concat s taken _
    _ = _ := congrArg _ (DriveClient.heard_response s a)

theorem heard_other {s : String} {a : StreamReadResponse} (hne : a.streamId ≠ s) :
    heard s (taken ++ [.readResponse a]) = heard s taken := by
  rw [heard_answered, if_neg hne, List.append_nil]

theorem heard_last (taken : List StreamOutput) (a : StreamReadResponse) :
    (heard a.streamId (taken ++ [.readResponse a])).getLast? = some a := by
  rw [heard_answered, if_pos rfl, List.getLast?_concat]

theorem Has.skip (h : Has opts fed taken c) {o : StreamOutput}
    (ho : ∀ s a, Stream.reply o ≠ .answer s a) : Has opts fed (taken ++ [o]) c := by
  have hheard : ∀ s, heard s (taken ++ [o]) = heard s taken := by
    intro s
    calc heard s (taken ++ [o]) = heard s taken ++ heard s [o] :=
          DriveClient.heard_concat s taken o
      _ = heard s taken ++ [] := congrArg _ (DriveClient.heard_of_not_answer ho s)
      _ = heard s taken := List.append_nil _
  have hdata : isDataFrame o = false := by
    cases o with
    | readResponse a => exact absurd rfl (ho a.streamId a)
    | _ => rfl
  refine ⟨h.listed, fun s hs hs' => ?_, fun s hs => ?_, h.resumed, ?_, fun s => ?_, h.reconnects⟩
  · rw [Rested, hheard]
    exact h.rest s hs hs'
  · rw [hheard]
    exact h.paused s hs
  · rw [List.countP_append, List.countP_singleton, hdata, h.counted]
    simp
  · rw [hheard]
    exact h.drops s

theorem Rested.other {s : String} (h : Rested taken s) {a : StreamReadResponse}
    (hne : a.streamId ≠ s) : Rested (taken ++ [.readResponse a]) s := by
  rw [Rested, heard_other hne]
  exact h

theorem drops_answered (s : String) (taken : List StreamOutput) (a : StreamReadResponse) :
    (heard s (taken ++ [.readResponse a])).countP isDropped =
      (heard s taken).countP isDropped + if a.streamId = s ∧ isDropped a = true then 1 else 0 := by
  rw [heard_answered]
  by_cases heq : a.streamId = s
  · rw [if_pos heq, List.countP_append, List.countP_singleton]
    by_cases hdropped : isDropped a = true <;> simp [heq, hdropped]
  · rw [if_neg heq, List.append_nil, if_neg fun h => heq h.1, Nat.add_zero]

theorem Has.data (h : Has opts fed taken c) {a : StreamReadResponse}
    (hactive : a.streamId ∈ c.active) (hpaused : a.streamId ∉ c.paused) (hdata : a.state = .data) :
    Has opts fed (taken ++ [.readResponse a]) (receiveData opts c a.streamId).1 := by
  have hne : ∀ s, s ∈ c.paused → a.streamId ≠ s := fun s hs heq => hpaused (heq ▸ hs)
  constructor
  case listed =>
    intro s hs
    rw [data_active] at hs
    exact h.listed s hs
  case rest =>
    intro s hs hs'
    rw [data_active] at hs'
    exact (h.rest s hs hs').other fun heq => hs' (heq ▸ hactive)
  case paused =>
    intro s hs
    rw [data_active]
    rcases ((data_paused s).mp hs).2 with hold | ⟨rfl, hpause⟩
    · rw [heard_other (hne s hold)]
      exact h.paused s hold
    · exact ⟨hactive, List.contains_iff_mem.mp hpause, a, heard_last taken a, hdata⟩
  case resumed =>
    intro hresumes
    rw [data_responses] at hresumes
    refine Std.ExtTreeSet.eq_empty_iff_forall_not_mem.mpr fun s hs => ?_
    have hnot := ((data_paused s).mp hs).1
    rw [hresumes] at hnot
    simp at hnot
  case counted =>
    rw [data_responses, List.countP_append, List.countP_singleton, ← h.counted]
    simp [isDataFrame, hdata]
  case drops =>
    intro s
    rw [drops_answered, data_active, data_reconnected, if_neg (by simp [isDropped, hdata])]
    exact h.drops s
  case reconnects =>
    intro s hs
    rw [data_reconnected] at hs
    exact h.reconnects s hs

theorem Has.reconnect (h : Has opts fed taken c) {a : StreamReadResponse}
    (hactive : a.streamId ∈ c.active) (hpaused : a.streamId ∉ c.paused)
    (hdropped : a.state = .dropped) (hreconnect : opts.reconnectDropped = true)
    (hfirst : a.streamId ∉ c.reconnected) :
    Has opts fed (taken ++ [.readResponse a])
      { c with reconnected := c.reconnected.insert a.streamId } := by
  have hne : ∀ s, s ∈ c.paused → a.streamId ≠ s := fun s hs heq => hpaused (heq ▸ hs)
  refine ⟨h.listed, fun s hs hs' => (h.rest s hs hs').other fun heq => hs' (heq ▸ hactive),
    fun s hs => ?_, h.resumed, ?_, fun s => ?_, fun _ _ => hreconnect⟩
  · rw [heard_other (hne s hs)]
    exact h.paused s hs
  · rw [List.countP_append, List.countP_singleton, ← h.counted]
    simp [isDataFrame, hdropped]
  · have hold := h.drops s
    rw [drops_answered]
    simp only [mem_insert_set]
    by_cases heq : a.streamId = s
    · subst heq
      rw [if_neg hfirst, if_pos hactive] at hold
      simp only [isDropped, hdropped, true_or, if_true, hactive, and_self, decide_true]
      omega
    · simpa [heq] using hold

theorem Has.leave (h : Has opts fed taken c) {a : StreamReadResponse}
    (hactive : a.streamId ∈ c.active) (hpaused : a.streamId ∉ c.paused) (hdata : a.state ≠ .data) :
    Has opts fed (taken ++ [.readResponse a]) { c with active := c.active.erase a.streamId } := by
  have hne : ∀ s, s ∈ c.paused → a.streamId ≠ s := fun s hs heq => hpaused (heq ▸ hs)
  refine ⟨fun s hs => h.listed s (DriveClient.mem_erase_active.mp hs).2, fun s hs hs' => ?_,
    fun s hs => ?_, h.resumed, ?_, fun s => ?_, h.reconnects⟩
  · by_cases heq : a.streamId = s
    · subst heq
      exact ⟨a, heard_last taken a, hdata⟩
    · refine (h.rest s hs fun hin => hs' ?_).other heq
      exact DriveClient.mem_erase_active.mpr ⟨heq, hin⟩
  · obtain ⟨hin, hpause, hlast⟩ := h.paused s hs
    rw [heard_other (hne s hs)]
    exact ⟨DriveClient.mem_erase_active.mpr ⟨hne s hs, hin⟩, hpause, hlast⟩
  · rw [List.countP_append, List.countP_singleton, ← h.counted]
    simp [isDataFrame, hdata]
  · have hold := h.drops s
    rw [drops_answered]
    simp only [DriveClient.mem_erase_active]
    by_cases heq : a.streamId = s
    · subst heq
      rw [if_pos hactive] at hold
      simp only [ne_eq, not_true_eq_false, false_and, if_false, true_and]
      split <;> omega
    · simpa [heq] using hold

end Frames

/-! ## The conversation -/

theorem goes_skip {fed : List StreamInput} {taken : List StreamOutput} {c : Client}
    (h : Has opts fed taken c) :
    Link.Goes StreamInput.ask (expects opts) (Fair Client.active) (Has opts)
      (fun _ _ _ => True) fed taken (expects opts c) (loop c []) :=
  DriveClient.goes_on h

theorem honest (capacityRecords : Nat) (capacity_pos : 0 < capacityRecords) (stopWhen : StopWhen) :
    Link.Honest StreamNode.handle StreamNode.desk StreamInput.ask Stream.reply
      (StreamNode.new capacityRecords capacity_pos stopWhen) (fun _ _ _ => True)
      (fun _ _ _ _ => True) := by
  refine Link.honest_of_turns fun front input => ?_
  have hstands := run_stands capacityRecords capacity_pos stopWhen front
  obtain ⟨P, -, hturn⟩ := StreamNode.handle_turn hstands.inv hstands.sound hstands.settled input
  exact ⟨hstands.sound, P, _, _, hturn, fun _ _ _ _ _ => trivial⟩

theorem expects_paused {c : Client} {s : String} (h : s ∈ c.paused) : expects opts c s = none := by
  by_cases hs : s ∈ c.active
  · calc expects opts c s = asks opts c s := DriveClient.expects_of_active hs
      _ = none := by rw [asks_eq, if_pos h]
  · exact DriveClient.expects_of_not_active hs

theorem expects_open {c : Client} {s : String} (hactive : s ∈ c.active) (hpaused : s ∉ c.paused) :
    expects opts c s = some (request opts) :=
  calc expects opts c s = asks opts c s := DriveClient.expects_of_active hactive
    _ = some (request opts) := by rw [asks_eq, if_neg hpaused]

theorem open_of_expects {c : Client} {s : String} {r : Request} (h : expects opts c s = some r) :
    s ∈ c.active ∧ s ∉ c.paused := by
  refine ⟨(DriveClient.active_of_expects h).1, fun hpaused => ?_⟩
  rw [expects_paused hpaused] at h
  simp at h

theorem data_renews {c : Client} {s : String} (hactive : s ∈ c.active) (hpaused : s ∉ c.paused)
    (hlisted : ∀ s', s' ∈ c.paused → s' ∈ c.active) (s' : String) :
    Renews (fun _ => True) (if s' = s then none else expects opts c s')
      (expects opts (receiveData opts c s).1 s')
      (Link.posts StreamInput.ask s' (receiveData opts c s).2) := by
  rw [data_posts hpaused]
  have hold : s' = s ∨ s' ∈ c.paused → (if s' = s then none else expects opts c s') = none := by
    intro hs
    split
    · rfl
    · rename_i hne
      exact expects_paused (hs.resolve_left hne)
  by_cases hread : s' ∉ (receiveData opts c s).1.paused ∧ (s' = s ∨ s' ∈ c.paused)
  · rw [if_pos hread]
    obtain ⟨hpaused', hs⟩ := hread
    have hactive' : s' ∈ (receiveData opts c s).1.active := by
      rw [data_active]
      rcases hs with rfl | hs
      · exact hactive
      · exact hlisted s' hs
    rw [hold hs, expects_open hactive' hpaused']
    exact .asks _ trivial
  · rw [if_neg hread]
    by_cases hs : s' = s ∨ s' ∈ c.paused
    · have hpaused' : s' ∈ (receiveData opts c s).1.paused := by
        by_contra hnot
        exact hread ⟨hnot, hs⟩
      rw [hold hs, expects_paused hpaused']
      exact .same none
    · rw [not_or] at hs
      have hsame : expects opts (receiveData opts c s).1 s' = expects opts c s' := by
        refine DriveClient.expects_congr (by rw [data_active]) ?_
        have hnot : s' ∉ (receiveData opts c s).1.paused := fun hin => by
          rcases ((data_paused s').mp hin).2 with hin | hin
          · exact hs.2 hin
          · exact hs.1 hin.1
        rw [asks_eq, asks_eq, if_neg hnot, if_neg hs.2]
      rw [if_neg hs.1, hsame]
      exact .same _

theorem leave_renews {c : Client} (s s' : String) :
    Renews (fun _ => True) (if s' = s then none else expects opts c s')
      (expects opts { c with active := c.active.erase s } s') [] := by
  by_cases heq : s' = s
  · subst heq
    have hleaves : s' ∉ c.active.erase s' := fun hin =>
      (DriveClient.mem_erase_active.mp hin).1 rfl
    have hnone : expects opts { c with active := c.active.erase s' } s' = none :=
      DriveClient.expects_of_not_active hleaves
    rw [if_pos rfl, hnone]
    exact .same none
  · have hsame : expects opts { c with active := c.active.erase s } s' = expects opts c s' :=
      DriveClient.expects_congr
        (DriveClient.mem_erase_active.trans (and_iff_right (Ne.symm heq))) rfl
    rw [if_neg heq, hsame]
    exact .same _

theorem goes_answered {fed : List StreamInput} {taken : List StreamOutput} {c : Client}
    (h : Has opts fed taken c) {a : StreamReadResponse} {r : Request}
    (hexpects : expects opts c a.streamId = some r) :
    Link.Goes StreamInput.ask (expects opts) (Fair Client.active) (Has opts)
      (fun _ _ _ => True) fed (taken ++ [.readResponse a])
      (fun s => if s = a.streamId then none else expects opts c s)
      (receive opts c (.readResponse a)) := by
  obtain ⟨hactive, hpaused⟩ := open_of_expects hexpects
  have hcontains : c.active.contains a.streamId = true := Std.ExtTreeSet.mem_iff_contains.mp hactive
  have hleave : a.state ≠ .data → Link.Goes StreamInput.ask (expects opts) (Fair Client.active)
      (Has opts) (fun _ _ _ => True) fed (taken ++ [.readResponse a])
      (fun s => if s = a.streamId then none else expects opts c s)
      (loop { c with active := c.active.erase a.streamId } []) := fun hdata =>
    DriveClient.goes_loop (by simp) (h.leave hactive hpaused hdata) (leave_renews a.streamId)
  rw [receive, hcontains, if_neg (by simp)]
  cases hstate : a.state with
  | data =>
      refine DriveClient.goes_loop (fun i hi => ?_) (h.data hactive hpaused hstate)
        (data_renews hactive hpaused fun s hs => (h.paused s hs).1)
      exact data_reads hi
  | dropped =>
      simp only
      split
      · rename_i hreconnects
        rw [Bool.and_eq_true, Bool.not_eq_true'] at hreconnects
        have hfirst : a.streamId ∉ c.reconnected := fun hin => by
          rw [Std.ExtTreeSet.mem_iff_contains, hreconnects.2] at hin
          simp at hin
        refine DriveClient.goes_loop (fun i hi => ?_)
          (h.reconnect hactive hpaused hstate hreconnects.1 hfirst) fun s => ?_
        · obtain rfl := List.mem_singleton.mp hi
          exact ⟨_, _, rfl⟩
        · rw [posts_writeRead]
          have hsame : DriveClient.expects Client.active (asks opts)
              { c with reconnected := c.reconnected.insert a.streamId } s = expects opts c s := rfl
          rw [hsame]
          by_cases heq : s = a.streamId
          · subst heq
            rw [if_pos rfl, if_pos rfl, expects_open hactive hpaused]
            exact .asks _ trivial
          · rw [if_neg heq, if_neg (Ne.symm heq)]
            exact .same _
      · exact hleave (by simp [hstate])
  | _ => exact hleave (by simp [hstate])

theorem polls (opts : ClientOpts) :
    Link.Polls (receive opts) StreamInput.ask Stream.reply (expects opts) (Fair Client.active)
      (Has opts) (fun _ _ _ => True) (fun _ _ _ _ => True) := by
  refine ⟨fun fed more taken c h => h.append more, fun fed more s r h => h, ?_, ?_⟩
  · intro fed taken c o s a r hhas hreply hexpects _
    cases o with
    | readResponse response =>
        obtain ⟨rfl, rfl⟩ := Reply.answer.inj hreply
        exact goes_answered hhas hexpects
    | _ => simp [Stream.reply, Output.reply] at hreply
  · intro fed taken c o hhas hreply
    cases o with
    | readResponse response => exact absurd rfl (hreply response.streamId response)
    | _ => exact goes_skip (hhas.skip hreply)

theorem new_active (s : String) : s ∈ (Client.new opts).active ↔ s ∈ opts.streamIds := by
  show s ∈ Std.ExtTreeSet.ofList opts.streamIds compare ↔ _
  rw [Std.ExtTreeSet.mem_ofList, List.contains_iff_mem]

theorem new_has (opts : ClientOpts) : Has opts [] [] (Client.new opts) := by
  have hempty : ∀ s, s ∉ (∅ : BTreeSet String) := fun s => Std.ExtTreeSet.not_mem_empty
  refine ⟨fun s hs => (new_active s).mp hs, fun s hs hs' => absurd ((new_active s).mpr hs) hs',
    fun s hs => absurd hs (hempty s), fun _ => rfl, rfl, fun s => Nat.zero_le _,
    fun s hs => absurd hs (hempty s)⟩

theorem goes_start (hnodup : opts.streamIds.Nodup) :
    Link.Goes StreamInput.ask (expects opts) (Fair Client.active) (Has opts)
      (fun _ _ _ => True) [] [] (fun _ => none) (start opts) := by
  unfold start
  refine DriveClient.goes_loop (fun i hi => ?_) (new_has opts) fun s => ?_
  · obtain ⟨s, -, rfl⟩ := List.mem_map.mp hi
    exact ⟨_, _, rfl⟩
  · rw [posts_map hnodup]
    split
    · rename_i hs
      have hopen : DriveClient.expects Client.active (asks opts) (Client.new opts) s =
          some (request opts) := expects_open ((new_active s).mpr hs) Std.ExtTreeSet.not_mem_empty
      rw [hopen]
      exact .asks _ trivial
    · rename_i hs
      rw [DriveClient.expects_of_not_active fun hin => hs ((new_active s).mp hin)]
      exact .same none

variable {capacityRecords : Nat} {capacity_pos : 0 < capacityRecords} {stopWhen : StopWhen}
  {moves : List (Move StreamInput)}

theorem session_converses (hnodup : opts.streamIds.Nodup)
    (hmoves : ∀ i, .prompt i ∈ moves → prompts i = true) :
    Link.Converses StreamNode.desk StreamInput.ask Stream.reply (expects opts)
      (Fair Client.active) (Has opts) (fun _ _ _ => True) (fun _ _ _ _ => True)
      (session opts capacityRecords capacity_pos stopWhen moves) := by
  refine Link.run_converses (t := StreamNode.new capacityRecords capacity_pos stopWhen)
    (StreamNode.desk_new capacityRecords capacity_pos stopWhen)
    (honest capacityRecords capacity_pos stopWhen) (polls opts) (goes_start hnodup) fun i hi => ?_
  have hprompts := hmoves i hi
  cases i <;> simp_all [prompts, StreamInput.ask]

theorem session_recorded (opts : ClientOpts) (capacityRecords : Nat)
    (capacity_pos : 0 < capacityRecords) (stopWhen : StopWhen) (moves : List (Move StreamInput)) :
    let l := session opts capacityRecords capacity_pos stopWhen moves
    l.node = run capacityRecords capacity_pos stopWhen l.fed ∧
      emitted capacityRecords capacity_pos stopWhen l.fed = l.taken ++ l.down :=
  have hrecorded := Link.run_recorded (start opts)
    (StreamNode.new capacityRecords capacity_pos stopWhen) moves
  ⟨hrecorded.node, hrecorded.sent⟩

theorem session_no_end (capacityRecords : Nat) (capacity_pos : 0 < capacityRecords)
    (stopWhen : StopWhen) (hnodup : opts.streamIds.Nodup)
    (hmoves : ∀ i, .prompt i ∈ moves → prompts i = true) (s : String) :
    .endStream s ∉ (session opts capacityRecords capacity_pos stopWhen moves).fed := by
  intro hin
  refine Link.run_fed (Q := fun i => i ≠ .endStream s) (by simp [Link.opening])
    (fun front hfront i hi => ?_) (fun i hi => ?_) _ hin rfl
  · rintro rfl
    exact (session_converses hnodup fun i hi => hmoves i (hfront.subset hi)).stays _ hi s rfl
  · rintro rfl
    simpa [prompts] using hmoves _ hi

/-- What the client has heard of a stream and what is on its way spell the log. -/
theorem session_spells (hnodup : opts.streamIds.Nodup)
    (hmoves : ∀ i, .prompt i ∈ moves → prompts i = true)
    {l : Link Client Exit StreamNode StreamInput StreamOutput}
    (hl : session opts capacityRecords capacity_pos stopWhen moves = l) (s : String) :
    Spells (logOf (accepted l.fed)) (heard s l.taken ++ heard s l.down) (l.node.place s) := by
  subst hl
  obtain ⟨hnode, hsent⟩ := session_recorded opts capacityRecords capacity_pos stopWhen moves
  have hspells := run_spells capacityRecords capacity_pos stopWhen
    (session_no_end capacityRecords capacity_pos stopWhen hnodup hmoves s)
  rw [← hnode, hsent, received_eq_told, List.map_append, Desk.told_append] at hspells
  exact hspells

/-- When nothing is in the pipes the node holds a read of every stream that the client reads
and that does not pause, and its reader stands at the head of an open node. -/
theorem held_at_rest (hnodup : opts.streamIds.Nodup)
    (hmoves : ∀ i, .prompt i ∈ moves → prompts i = true)
    {l : Link Client Exit StreamNode StreamInput StreamOutput}
    (hl : session opts capacityRecords capacity_pos stopWhen moves = l) {c : Client}
    (hc : l.client = .running c) (hup : l.up = []) (hdown : l.down = []) {s : String}
    (hactive : s ∈ c.active) (hpaused : s ∉ c.paused) :
    l.node.isSealed = false ∧ l.node.isClosed = false ∧ l.node.place s = some l.node.head ∧
      ∃ held, l.node.heldOf s = some held ∧ held.request = request opts := by
  subst hl
  obtain ⟨-, hstanding⟩ := (session_converses hnodup hmoves).running c hc
  have hrest := DriveClient.held_of_rest StreamNode.heldOf (hstanding s) hup hdown
  have hopen : DriveClient.expects Client.active (asks opts) c s = some (request opts) :=
    expects_open hactive hpaused
  rw [hopen] at hrest
  obtain ⟨held, hheld, hrequest⟩ := Option.map_eq_some_iff.mp hrest
  obtain ⟨hnode, -⟩ := session_recorded opts capacityRecords capacity_pos stopWhen moves
  rw [hnode] at hheld ⊢
  obtain ⟨reader, hentry, hread⟩ := Option.bind_eq_some_iff.mp hheld
  have hstands := run_stands capacityRecords capacity_pos stopWhen
    (session opts capacityRecords capacity_pos stopWhen moves).fed
  obtain ⟨hsealed, hclosed, hcursor⟩ := StreamNode.held_at_head hstands.inv hstands.settled hentry
    (by rw [hread]; rfl)
  refine ⟨hsealed, hclosed, ?_, held, hheld, hrequest⟩
  rw [StreamNode.place, hentry, Option.map_some, hcursor]

/-- **Delivery.**  Of every stream a client hears one part of the log after another, each
record once and in order, with a gap only where its reader was dropped, which happens once,
or twice to a client that reconnects.  When the client has ended, each of its streams was told
last that nothing new had come in time or that it was dropped, or it has heard the log to its
end; and while it waits, a stream that does not pause has heard the log to its head. -/
theorem stream_client_delivers (opts : ClientOpts) (hnodup : opts.streamIds.Nodup)
    (capacityRecords : Nat) (capacity_pos : 0 < capacityRecords) (stopWhen : StopWhen)
    (moves : List (Move StreamInput)) (hmoves : ∀ i, .prompt i ∈ moves → prompts i = true) :
    let l := session opts capacityRecords capacity_pos stopWhen moves
    let log := logOf (accepted l.fed)
    (∀ s, (∀ r ∈ heard s l.taken, Spans log r) ∧ (heard s l.taken).IsChain Next ∧
      (((heard s l.taken).flatMap StreamReadResponse.records).map StreamRecord.seq).Pairwise
        (· < ·)) ∧
    (∀ s, (heard s l.taken).countP isDropped ≤ if opts.reconnectDropped then 2 else 1) ∧
    (∀ s first last, (heard s l.taken).countP isDropped = 0 →
      (heard s l.taken).head? = some first → (heard s l.taken).getLast? = some last →
      (heard s l.taken).flatMap StreamReadResponse.records =
        (window log first.first.toNat last.nextPosition.seq.toNat).map record) ∧
    (∀ c state, l.client = .stopped c (.finalLine state) → ∀ s ∈ opts.streamIds,
      ∃ a, (heard s l.taken).getLast? = some a ∧ (a.state = .wouldBlock ∨ a.state = .dropped ∨
        l.fed.any StreamInput.ends = true ∧ a.nextPosition.seq = log.length)) ∧
    (∀ c, l.client = .running c → l.up = [] → l.down = [] → ∀ s ∈ c.active, s ∉ c.paused →
      ∀ a, (heard s l.taken).getLast? = some a → a.state ≠ .dropped →
        a.nextPosition.seq = log.length) := by
  intro l log
  have hconverses : Link.Converses StreamNode.desk StreamInput.ask Stream.reply (expects opts)
      (Fair Client.active) (Has opts) (fun _ _ _ => True) (fun _ _ _ _ => True) l :=
    session_converses hnodup hmoves
  have hspells : ∀ s, Spells log (heard s l.taken ++ heard s l.down) (l.node.place s) :=
    session_spells hnodup hmoves rfl
  have hspans : ∀ s, ∀ r ∈ heard s l.taken, Spans log r := fun s r hr =>
    (hspells s).spans r (List.mem_append_left _ hr)
  have hchain : ∀ s, (heard s l.taken).IsChain Next := fun s =>
    (hspells s).chain.left_of_append
  obtain ⟨hnode, hsent⟩ : l.node = run capacityRecords capacity_pos stopWhen l.fed ∧
      emitted capacityRecords capacity_pos stopWhen l.fed = l.taken ++ l.down :=
    session_recorded opts capacityRecords capacity_pos stopWhen moves
  refine ⟨fun s => ⟨hspans s, hchain s, ?_⟩, fun s => ?_, fun s first last hlive hfirst hlast => ?_,
    fun c state hc s hs => ?_, fun c hc hup hdown s hs hpaused a hlast hdropped => ?_⟩
  · exact (Spells.increasing (logOf_numbered _) (hspans s) (hchain s)).1
  · have hdrops := hconverses.known.drops s
    by_cases hreconnected : s ∈ l.client.state.reconnected
    · rw [hconverses.known.reconnects s hreconnected, if_pos rfl]
      rw [if_pos hreconnected] at hdrops
      split at hdrops <;> omega
    · rw [if_neg hreconnected] at hdrops
      split at hdrops <;> split <;> omega
  · refine (Spells.contiguous (hspans s) (hchain s) (fun r hr hdropped => ?_) hfirst hlast).2
    have hnot := List.countP_eq_zero.mp hlive r hr
    simp [isDropped, hdropped] at hnot
  · obtain ⟨hhas, hfair⟩ := hconverses.stopped c (.finalLine state) hc
    obtain ⟨a, hlast, hdata⟩ := hhas.rest s hs (DriveClient.not_active hfair s)
    refine ⟨a, hlast, ?_⟩
    by_cases hblock : a.state = .wouldBlock
    · exact .inl hblock
    by_cases hdropped : a.state = .dropped
    · exact .inr (.inl hdropped)
    have hin : .readResponse a ∈ emitted capacityRecords capacity_pos stopWhen l.fed := by
      rw [hsent]
      have htold := List.mem_of_getLast? hlast
      rw [heard, DriveClient.heard, ← Stream.reply, ← received_eq_told] at htold
      exact List.mem_append_left _ (mem_received htold).1
    obtain ⟨hends, hposition⟩ := run_ended capacityRecords capacity_pos stopWhen l.fed hin hdata
      hblock hdropped
    rw [logOf_length]
    exact .inr (.inr ⟨hends, hposition⟩)
  · obtain ⟨-, -, hplace, -⟩ := held_at_rest hnodup hmoves rfl hc hup hdown hs hpaused
    have hnothing : heard s l.down = [] := by
      rw [hdown]
      rfl
    have hspells' := hspells s
    rw [hnothing, List.append_nil] at hspells'
    have hstays := hspells'.stays a hlast hdropped
    have hring := (run_ring capacityRecords capacity_pos stopWhen l.fed).1
    rw [← hnode] at hring
    rw [← hring.head]
    exact Option.some.inj (hstays.symm.trans hplace)

/-- A slow reader of a small ring is dropped, comes back, and hears the end. -/
theorem stream_client_delivers_dropped :
    let opts : ClientOpts := ⟨["s"], some 1, none, none, true, [], none⟩
    let l := session opts 1 (by decide) .explicitOnly
      [.serve, .prompt (.push [1]), .prompt (.push [2]), .prompt (.push [3]), .hear, .serve, .hear,
        .serve, .prompt (.push [4]), .prompt .seal, .hear, .serve, .hear]
    l.client.outcome = some (.finalLine "done") ∧
      ((heard "s" l.taken).flatMap StreamReadResponse.records).map StreamRecord.seq = [1, 4] ∧
      (heard "s" l.taken).countP isDropped = 1 ∧
      (∀ s, (∀ r ∈ heard s l.taken, Spans (logOf (accepted l.fed)) r) ∧
        (heard s l.taken).IsChain Next ∧
        (((heard s l.taken).flatMap StreamReadResponse.records).map StreamRecord.seq).Pairwise
          (· < ·)) := by
  intro opts l
  have hdelivers := stream_client_delivers opts (by decide) 1 (by decide) .explicitOnly
    [.serve, .prompt (.push [1]), .prompt (.push [2]), .prompt (.push [3]), .hear, .serve, .hear,
      .serve, .prompt (.push [4]), .prompt .seal, .hear, .serve, .hear] (by simp [prompts])
  exact ⟨by decide, by decide, by decide, hdelivers.1⟩

end TautShape.StreamTool
