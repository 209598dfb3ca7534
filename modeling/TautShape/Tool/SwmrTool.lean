import TautShape.Tool.DriveClient
import TautShape.Swmr.Expiry
/-!
# The swmr client

The reading side of the tool against a swmr node: a read for each stream, and another one
with the cursor it was given for as long as there is data or a reset.  Under the expiry
profile a reset ends the stream, with a line that says why.  Both run at their own pace,
and the node is prompted by its producer script.  The frames are their decoded messages.
-/

namespace TautShape.SwmrTool

open TautShape.Lib TautShape.Swmr TautShape.Held
open TautShape.DriveClient (Exit Fair)
open TautShape.Log (StopWhen)

structure ClientOpts where
  swmrId : String
  streamIds : List String
  initialCursor : Option SwmrCursor
  timeoutMs : Option Int
  expireProfile : Bool

structure Client where
  active : BTreeSet String
  cursors : BTreeMap String (Option SwmrCursor)

variable (opts : ClientOpts)

def writeRead (streamId : String) (cursor : Option SwmrCursor) : SwmrInput :=
  .read streamId ⟨opts.swmrId, cursor, opts.timeoutMs⟩

def loop (c : Client) (written : List SwmrInput) : Party Client Exit × List SwmrInput :=
  DriveClient.loop Client.active (fun _ => "done") c written

def Client.new : Client where
  active := Std.ExtTreeSet.ofList opts.streamIds compare
  cursors := Std.ExtTreeMap.ofList (opts.streamIds.map (·, opts.initialCursor)) compare

def start : Party Client Exit × List SwmrInput :=
  let c := Client.new opts
  loop c (opts.streamIds.map fun streamId => writeRead opts streamId c.cursors[streamId]?.join)

/-- A response for which the client writes `refresh_required`. -/
def refreshes (response : SwmrReadResponse) : Bool :=
  opts.expireProfile && response.state = .reset

def receive (c : Client) : SwmrOutput → Party Client Exit × List SwmrInput
  | .readResponse response =>
      if !c.active.contains response.streamId then (.stopped c .refused, [])
      else if refreshes opts response then
        loop { c with active := c.active.erase response.streamId } []
      else
        match response.state with
        | .data | .reset =>
            let c := { c with cursors := c.cursors.insert response.streamId response.nextCursor }
            loop c [writeRead opts response.streamId c.cursors[response.streamId]?.join]
        | .wouldBlock | .eof | .closed | .failed =>
            loop { c with active := c.active.erase response.streamId } []
  | .setTimer _ _ | .cancelTimer _ | .producerStop _ | .diagnostic _ => loop c []

inductive Line where
  | response (response : SwmrReadResponse)
  | refreshRequired (swmrId streamId reason : String)
  | diagnostic (diagnostic : SwmrDiagnostic)
deriving DecidableEq, Repr

/-- What the client writes to its transcript about a frame that it does not refuse. -/
def line : SwmrOutput → Option Line
  | .readResponse response =>
      if refreshes opts response then
        some (.refreshRequired response.swmrId response.streamId
          (match response.resetReason with
          | some .retentionExceeded => "retention_expired"
          | some .invalidResumeSeq => "invalid_cursor"
          | some .producerRequested | none => "source_changed"))
      else some (.response response)
  | .diagnostic diagnostic => some (.diagnostic diagnostic)
  | .setTimer _ _ | .cancelTimer _ | .producerStop _ => none

def asks (c : Client) (streamId : String) : Option Request :=
  c.cursors[streamId]?.map fun cursor => ⟨opts.swmrId, cursor, opts.timeoutMs⟩

abbrev expects (c : Client) (streamId : String) : Option Request :=
  DriveClient.expects Client.active (asks opts) c streamId

/-- What the node reads from its script, beside the reads of the client: what the producer
does, and timers that run out. -/
def prompts : SwmrInput → Bool
  | .snapshotPush _ _ | .deltaPush _ _ | .reset _ _ _ | .seal | .close _ | .timerExpired _ => true
  | .read _ _ | .endStream _ => false

def session (stopWhen : StopWhen) (maxDeltas : Option Nat) (moves : List (Move SwmrInput)) :
    Link Client Exit SwmrNode SwmrInput SwmrOutput :=
  (Link.opening (start opts) (SwmrNode.new stopWhen maxDeltas)).run SwmrNode.handle (receive opts)
    moves

abbrev heard (streamId : String) (out : List SwmrOutput) : List SwmrReadResponse :=
  DriveClient.heard SwmrReadResponse.streamId streamId out

def transcript (taken : List SwmrOutput) : List Line := taken.filterMap (line opts)

/-- The reader's copy, by what the transcript shows of its stream. -/
def copyOf (streamId : String) (taken : List SwmrOutput) : Replica :=
  (transcript opts taken).foldl
    (fun r => fun
      | .response a => if a.streamId = streamId then r.receive a else r
      | _ => r) Replica.fresh

abbrev outstanding (l : Link Client Exit SwmrNode SwmrInput SwmrOutput) (s : String) : Nat :=
  DriveClient.outstanding SwmrInput.ask SwmrReadResponse.streamId
    (fun n => n.readers.heldOf) l s

/-! ## What the node tells a client -/

/-- A client that begins without a cursor asks with none but those it was given. -/
def May (opts : ClientOpts) (stopWhen : StopWhen) (maxDeltas : Option Nat) (fed : List SwmrInput)
    (_ : String) (r : Request) : Prop :=
  opts.initialCursor = none →
    ∀ c, r.cursor = some c → Reached (published stopWhen maxDeltas fed) c

structure Told (opts : ClientOpts) (stopWhen : StopWhen) (maxDeltas : Option Nat)
    (front : List SwmrInput) (s : String) (r : Request) (a : SwmrReadResponse) : Prop where
  said : ∃ timeoutMs,
    (run stopWhen maxDeltas front).resolve r.swmrId s r.cursor timeoutMs = some a
  may : May opts stopWhen maxDeltas front s r

variable {opts} {stopWhen : StopWhen} {maxDeltas : Option Nat}

theorem honest (opts : ClientOpts) (stopWhen : StopWhen) (maxDeltas : Option Nat) :
    Link.Honest SwmrNode.handle (fun n => n.readers.desk) SwmrInput.ask Swmr.reply
      (SwmrNode.new stopWhen maxDeltas) (May opts stopWhen maxDeltas)
      (Told opts stopWhen maxDeltas) := by
  refine Link.honest_of_turns fun front input => ?_
  have hstands := run_stands stopWhen maxDeltas front
  refine ⟨hstands.sound, _, _, _,
    SwmrNode.handle_turn hstands.inv hstands.sound hstands.settled input, ?_⟩
  intro s r a hmay hanswer
  refine ⟨?_, hmay⟩
  rw [run_concat]
  rcases hanswer with hanswer | hlate
  · exact ⟨_, hanswer⟩
  · exact ⟨_, hlate⟩

theorem published_append (stopWhen : StopWhen) (maxDeltas : Option Nat)
    (front more : List SwmrInput) :
    ∃ later, published stopWhen maxDeltas (front ++ more) =
      published stopWhen maxDeltas front ++ later := by
  induction more using List.reverseRecOn with
  | nil => exact ⟨[], by simp⟩
  | append_singleton rest input ih =>
      obtain ⟨later, heq⟩ := ih
      rw [← List.append_assoc, published_concat, heq, List.append_assoc]
      exact ⟨_, rfl⟩

/-- A terminal store does not change any more. -/
theorem handle_terminal {n : SwmrNode} (h : n.terminal = true) (input : SwmrInput) :
    (n.handle input).1.terminal = true ∧ (n.handle input).1.currentCursor = n.currentCursor := by
  have hspec := n.handle_spec input
  have hnot : ∀ w, ¬ n.MayWrite w := fun w hwrite => by simp [hwrite.1] at h
  generalize n.handle input = result at hspec ⊢
  cases hspec with
  | snapshotPush w payload hwrite => exact absurd hwrite (hnot w)
  | deltaPush w payload hwrite snapshot hsnapshot hroom => exact absurd hwrite (hnot w)
  | reset w reason detail hwrite => exact absurd hwrite (hnot w)
  | «seal» hopen => exact ⟨by simp [SwmrNode.terminal, SwmrNode.answerAllHeld], rfl⟩
  | close error hopen => exact ⟨by simp [SwmrNode.terminal, SwmrNode.answerAllHeld], rfl⟩
  | _ => exact ⟨h, rfl⟩

theorem run_terminal (front more : List SwmrInput)
    (h : (run stopWhen maxDeltas front).terminal = true) :
    (run stopWhen maxDeltas (front ++ more)).terminal = true ∧
      (run stopWhen maxDeltas (front ++ more)).currentCursor =
        (run stopWhen maxDeltas front).currentCursor := by
  rw [run_append]
  refine after_induction SwmrNode.handle (P := fun n => n.terminal = true ∧
    n.currentCursor = (run stopWhen maxDeltas front).currentCursor) ⟨h, rfl⟩ ?_
  intro n input _ hn
  obtain ⟨hterminal, hcursor⟩ := handle_terminal hn.1 input
  exact ⟨hterminal, hcursor.trans hn.2⟩

theorem caughtUp_terminal {n : SwmrNode} {swmrId streamId : String} {next : Option SwmrCursor}
    {timeoutMs : Option Int} {a : SwmrReadResponse}
    (ha : n.caughtUp swmrId streamId next timeoutMs = some a) (hblock : a.state ≠ .wouldBlock) :
    n.terminal = true := by
  unfold SwmrNode.caughtUp at ha
  by_cases hclosed : n.isClosed = true
  · simp [SwmrNode.terminal, hclosed]
  · by_cases hsealed : n.isSealed = true
    · simp [SwmrNode.terminal, hsealed]
    · rw [if_neg hclosed, if_neg hsealed] at ha
      split_ifs at ha
      obtain rfl := Option.some.inj ha
      exact absurd rfl hblock

theorem resolve_terminal {n : SwmrNode} {swmrId streamId : String} {cursor : Option SwmrCursor}
    {timeoutMs : Option Int} {a : SwmrReadResponse}
    (ha : n.resolve swmrId streamId cursor timeoutMs = some a) (hdata : a.state ≠ .data)
    (hreset : a.state ≠ .reset) (hblock : a.state ≠ .wouldBlock) : n.terminal = true := by
  unfold SwmrNode.resolve at ha
  split at ha
  · exact absurd (congrArg SwmrReadResponse.state (Option.some.inj ha)).symm hreset
  split at ha
  · exact absurd (congrArg SwmrReadResponse.state (Option.some.inj ha)).symm hreset
  split at ha
  · exact caughtUp_terminal ha hblock
  split at ha
  · exact absurd (congrArg SwmrReadResponse.state (Option.some.inj ha)).symm hdata
  split at ha
  · exact absurd (congrArg SwmrReadResponse.state (Option.some.inj ha)).symm hreset
  split at ha
  · exact caughtUp_terminal ha hblock
  split at ha
  · exact absurd (congrArg SwmrReadResponse.state (Option.some.inj ha)).symm hreset
  · exact absurd (congrArg SwmrReadResponse.state (Option.some.inj ha)).symm hdata

theorem caughtUp_cursor {P : List Published} {n : SwmrNode} (h : Recorded P n)
    (hreason : n.resetReason.getD .producerRequested = .producerRequested) {cursor : Option SwmrCursor}
    (hreached : ∀ c, cursor = some c → Reached P c) {swmrId streamId : String}
    {timeoutMs : Option Int} {a : SwmrReadResponse}
    (ha : n.resolve swmrId streamId cursor timeoutMs = some a) (hreset : a.state ≠ .reset) :
    a.nextCursor = n.currentCursor := by
  have hnext : ∀ r : Replica, (r.receive a).cursor = a.nextCursor := by
    intro r
    unfold Replica.receive
    split <;> rfl
  rw [← hnext Replica.fresh]
  cases cursor with
  | none => rw [(SwmrNode.start_of_resolve ha).2.2, SwmrNode.whole]
  | some c =>
      cases SwmrNode.advance_of_resolve h hreason (hreached c rfl) ha with
      | whole reason hbehind hstate => exact absurd hstate hreset
      | slice s hs hepoch hfirst hstate hcaught hslice =>
          rw [hslice, SwmrNode.currentCursor, hs]
          rfl

/-! ## What the client has -/

def Rested (opts : ClientOpts) (stopWhen : StopWhen) (maxDeltas : Option Nat)
    (fed : List SwmrInput) (taken : List SwmrOutput) (s : String) : Prop :=
  ∃ a, (heard s taken).getLast? = some a ∧
    (a.state = .wouldBlock ∨ refreshes opts a = true ∨
      (run stopWhen maxDeltas fed).terminal = true ∧
        (copyOf opts s taken).cursor = (run stopWhen maxDeltas fed).currentCursor)

/-- What a client that began without a cursor has of its streams. -/
structure Copies (opts : ClientOpts) (stopWhen : StopWhen) (maxDeltas : Option Nat)
    (fed : List SwmrInput) (taken : List SwmrOutput) (c : Client) : Prop where
  faithful : ∀ s, Faithful (published stopWhen maxDeltas fed) (copyOf opts s taken)
  cursors : ∀ (s : String) cursor, s ∈ c.active → c.cursors[s]? = some cursor →
    cursor = (copyOf opts s taken).cursor
  rest : ∀ s ∈ c.cursors, s ∉ c.active → Rested opts stopWhen maxDeltas fed taken s
  reasons : ∀ swmrId streamId reason,
    .refreshRequired swmrId streamId reason ∈ transcript opts taken →
      reason = "source_changed" ∨ reason = "retention_expired"

structure Has (opts : ClientOpts) (stopWhen : StopWhen) (maxDeltas : Option Nat)
    (fed : List SwmrInput) (taken : List SwmrOutput) (c : Client) : Prop where
  named : ∀ s, s ∈ c.cursors ↔ s ∈ opts.streamIds
  listed : ∀ s, s ∈ c.active → s ∈ c.cursors
  copies : opts.initialCursor = none → Copies opts stopWhen maxDeltas fed taken c

theorem Rested.append {fed : List SwmrInput} {taken : List SwmrOutput} {s : String}
    (h : Rested opts stopWhen maxDeltas fed taken s) (more : List SwmrInput) :
    Rested opts stopWhen maxDeltas (fed ++ more) taken s := by
  obtain ⟨a, hlast, hstate⟩ := h
  refine ⟨a, hlast, hstate.imp_right fun h => h.imp_right fun h => ?_⟩
  obtain ⟨hterminal, hcursor⟩ := run_terminal fed more h.1
  exact ⟨hterminal, h.2.trans hcursor.symm⟩

theorem Has.append {fed : List SwmrInput} {taken : List SwmrOutput} {c : Client}
    (h : Has opts stopWhen maxDeltas fed taken c) (more : List SwmrInput) :
    Has opts stopWhen maxDeltas (fed ++ more) taken c := by
  refine { h with copies := fun hnone => ?_ }
  have hcopies := h.copies hnone
  obtain ⟨later, heq⟩ := published_append stopWhen maxDeltas fed more
  refine { hcopies with faithful := fun s => ?_, rest := fun s hs hs' => ?_ }
  · rw [heq]
    exact (hcopies.faithful s).mono later
  · exact (hcopies.rest s hs hs').append more

theorem copyOf_concat (s : String) (taken : List SwmrOutput) (o : SwmrOutput) :
    copyOf opts s (taken ++ [o]) =
      match line opts o with
      | some (.response a) =>
          if a.streamId = s then (copyOf opts s taken).receive a else copyOf opts s taken
      | _ => copyOf opts s taken := by
  rw [copyOf, transcript, List.filterMap_append, List.foldl_append, ← transcript, ← copyOf]
  cases hline : line opts o with
  | none => simp [hline]
  | some l => cases l <;> simp [hline]

theorem transcript_concat (taken : List SwmrOutput) (o : SwmrOutput) :
    transcript opts (taken ++ [o]) = transcript opts taken ++ (line opts o).toList := by
  rw [transcript, List.filterMap_append, ← transcript]
  cases hline : line opts o <;> simp [hline]

theorem Has.skip {fed : List SwmrInput} {taken : List SwmrOutput} {c : Client}
    (h : Has opts stopWhen maxDeltas fed taken c) {o : SwmrOutput}
    (ho : ∀ a, o ≠ .readResponse a) : Has opts stopWhen maxDeltas fed (taken ++ [o]) c := by
  have hheard : ∀ s, heard s (taken ++ [o]) = heard s taken := by
    intro s
    calc heard s (taken ++ [o]) = heard s taken ++ heard s [o] :=
          DriveClient.heard_concat s taken o
      _ = heard s taken := by
        cases o with
        | readResponse a => exact absurd rfl (ho a)
        | _ => exact List.append_nil _
  have hcopy : ∀ s, copyOf opts s (taken ++ [o]) = copyOf opts s taken := by
    intro s
    rw [copyOf_concat]
    cases o with
    | readResponse a => exact absurd rfl (ho a)
    | _ => rfl
  refine { h with copies := fun hnone => ?_ }
  have hcopies := h.copies hnone
  refine ⟨fun s => ?_, fun s cursor hs hcursor => ?_, fun s hs hs' => ?_,
    fun swmrId streamId reason hline => ?_⟩
  · rw [hcopy]
    exact hcopies.faithful s
  · rw [hcopy]
    exact hcopies.cursors s cursor hs hcursor
  · rw [Rested, hheard, hcopy]
    exact hcopies.rest s hs hs'
  · rw [transcript_concat, List.mem_append] at hline
    rcases hline with hline | hline
    · exact hcopies.reasons swmrId streamId reason hline
    · cases o with
      | readResponse a => exact absurd rfl (ho a)
      | _ => simp [line] at hline

def continues (opts : ClientOpts) (a : SwmrReadResponse) : Bool :=
  (a.state = .data || a.state = .reset) && !refreshes opts a

def Client.answered (opts : ClientOpts) (c : Client) (a : SwmrReadResponse) : Client where
  active := if continues opts a then c.active else c.active.erase a.streamId
  cursors := if continues opts a then c.cursors.insert a.streamId a.nextCursor else c.cursors

theorem receive_answered {c : Client} {a : SwmrReadResponse} (h : a.streamId ∈ c.active) :
    receive opts c (.readResponse a) = loop (c.answered opts a)
      (if continues opts a then [writeRead opts a.streamId a.nextCursor] else []) := by
  have hcontains : c.active.contains a.streamId = true := Std.ExtTreeSet.mem_iff_contains.mp h
  rw [receive, hcontains, if_neg (by simp), Client.answered, continues]
  cases hrefreshes : refreshes opts a with
  | true => simp
  | false =>
      cases a.state <;> simp

theorem receive_cursor (r : Replica) (a : SwmrReadResponse) :
    (r.receive a).cursor = a.nextCursor := by
  unfold Replica.receive
  split <;> rfl

theorem line_response (opts : ClientOpts) (a : SwmrReadResponse) :
    (refreshes opts a = true ∧ a.state = .reset ∧ ∃ reason, line opts (.readResponse a) =
        some (.refreshRequired a.swmrId a.streamId reason) ∧
        (a.resetReason ≠ some .invalidResumeSeq →
          reason = "source_changed" ∨ reason = "retention_expired")) ∨
      (refreshes opts a = false ∧ line opts (.readResponse a) = some (.response a)) := by
  cases hrefreshes : refreshes opts a with
  | false => exact .inr ⟨rfl, by simp [line, hrefreshes]⟩
  | true =>
      have hreset : a.state = .reset := by
        unfold refreshes at hrefreshes
        simp_all
      refine .inl ⟨rfl, hreset, _, by rw [line, hrefreshes, if_pos rfl], fun hreason => ?_⟩
      split
      · exact .inr rfl
      · contradiction
      · exact .inl rfl
      · exact .inl rfl

theorem Copies.answered {front more : List SwmrInput} {taken : List SwmrOutput} {c : Client}
    (h : Copies opts stopWhen maxDeltas (front ++ more) taken c) {a : SwmrReadResponse}
    {cursor : Option SwmrCursor} (hactive : a.streamId ∈ c.active)
    (hasked : c.cursors[a.streamId]? = some cursor)
    (hreached : ∀ c, cursor = some c → Reached (published stopWhen maxDeltas front) c)
    {swmrId : String} {timeoutMs : Option Int}
    (ha : (run stopWhen maxDeltas front).resolve swmrId a.streamId cursor timeoutMs = some a) :
    Copies opts stopWhen maxDeltas (front ++ more) (taken ++ [.readResponse a])
      (c.answered opts a) := by
  have hcursor := h.cursors a.streamId cursor hactive hasked
  have hrecorded := run_recorded stopWhen maxDeltas front
  have hreason := run_resetReason stopWhen maxDeltas front
  have hcopy : ∀ s, copyOf opts s (taken ++ [.readResponse a]) =
      if a.streamId = s ∧ refreshes opts a = false then (copyOf opts s taken).receive a
      else copyOf opts s taken := by
    intro s
    rw [copyOf_concat]
    rcases line_response opts a with ⟨hrefreshes, -, reason, hline, -⟩ | ⟨hrefreshes, hline⟩
    · simp [hline, hrefreshes]
    · simp [hline, hrefreshes]
  have hother : ∀ s, a.streamId ≠ s → copyOf opts s (taken ++ [.readResponse a]) =
      copyOf opts s taken := fun s hs => by rw [hcopy, if_neg fun h => hs h.1]
  constructor
  case faithful =>
    intro s
    rw [hcopy]
    split
    · rename_i heq
      obtain ⟨rfl, -⟩ := heq
      obtain ⟨later, hlater⟩ := published_append stopWhen maxDeltas front more
      have hfaithful := h.faithful a.streamId
      rw [hlater] at hfaithful ⊢
      subst hcursor
      exact hrecorded.receive_faithful hreason hfaithful hreached ha
    · exact h.faithful s
  case cursors =>
    intro s cursor' hs hcursor'
    rw [Client.answered] at hs hcursor'
    cases hcontinues : continues opts a with
    | true =>
        simp only [hcontinues, if_true] at hs hcursor'
        rw [getElem?_insert] at hcursor'
        split at hcursor'
        · rename_i heq
          have hrefreshes : refreshes opts a = false := by
            unfold continues at hcontinues
            simp_all
          rw [hcopy, if_pos ⟨heq, hrefreshes⟩, receive_cursor]
          exact (Option.some.inj hcursor').symm
        · rename_i hne
          rw [hother s hne]
          exact h.cursors s cursor' hs hcursor'
    | false =>
        simp only [hcontinues, Bool.false_eq_true, if_false, DriveClient.mem_erase_active] at hs hcursor'
        rw [hother s hs.1]
        exact h.cursors s cursor' hs.2 hcursor'
  case rest =>
    intro s hs hs'
    rw [Client.answered] at hs hs'
    have hheard : heard s (taken ++ [.readResponse a]) =
        heard s taken ++ if a.streamId = s then [a] else [] :=
      calc heard s (taken ++ [.readResponse a]) = heard s taken ++ heard s [.readResponse a] :=
            DriveClient.heard_concat s taken _
        _ = _ := congrArg _ (DriveClient.heard_response s a)
    rw [Rested, hheard]
    by_cases heq : a.streamId = s
    · subst heq
      have hcontinues : continues opts a = false := by
        by_contra htrue
        simp only [Bool.not_eq_false] at htrue
        simp only [htrue, if_true] at hs'
        exact hs' hactive
      refine ⟨a, by simp, ?_⟩
      by_cases hblock : a.state = .wouldBlock
      · exact .inl hblock
      cases hrefreshes : refreshes opts a with
      | true => exact .inr (.inl rfl)
      | false =>
          have hstate : a.state ≠ .data ∧ a.state ≠ .reset := by
            unfold continues at hcontinues
            simp_all
          have hterminal := resolve_terminal ha hstate.1 hstate.2 hblock
          obtain ⟨hterminal', hcurrent⟩ := run_terminal front more hterminal
          refine .inr (.inr ⟨hterminal', ?_⟩)
          rw [hcopy, if_pos ⟨rfl, hrefreshes⟩, receive_cursor, hcurrent]
          exact caughtUp_cursor hrecorded hreason hreached ha hstate.2
    · rw [if_neg heq, List.append_nil, hother s heq]
      refine h.rest s ?_ fun hin => hs' ?_
      · split at hs
        · rw [Std.ExtTreeMap.mem_insert, Std.LawfulEqCmp.compare_eq_iff_eq] at hs
          exact hs.resolve_left heq
        · exact hs
      · split
        · exact hin
        · exact DriveClient.mem_erase_active.mpr ⟨heq, hin⟩
  case reasons =>
    intro swmrId' streamId reason hline
    rw [transcript_concat, List.mem_append] at hline
    rcases hline with hline | hline
    · exact h.reasons swmrId' streamId reason hline
    · rcases line_response opts a with ⟨-, hreset, reason', hsaid, hwhy⟩ | ⟨-, hsaid⟩
      · rw [hsaid, Option.toList_some, List.mem_singleton] at hline
        obtain ⟨-, -, rfl⟩ := Line.refreshRequired.inj hline
        refine hwhy fun hinvalid => ?_
        obtain ⟨c', reason', -, hreason', hbehind⟩ :=
          SwmrNode.behind_of_reset hrecorded hreason hreached ha hreset
        obtain rfl := Option.some.inj (hreason'.symm.trans hinvalid)
        cases hbehind
      · rw [hsaid] at hline
        simp at hline

theorem Has.answered {fed : List SwmrInput} {taken : List SwmrOutput} {c : Client}
    (h : Has opts stopWhen maxDeltas fed taken c) {a : SwmrReadResponse} {r : Request}
    (hexpects : expects opts c a.streamId = some r) {front : List SwmrInput} (hfront : front <+: fed)
    (htold : Told opts stopWhen maxDeltas front a.streamId r a) :
    Has opts stopWhen maxDeltas fed (taken ++ [.readResponse a]) (c.answered opts a) := by
  obtain ⟨hactive, hasks⟩ := DriveClient.active_of_expects hexpects
  obtain ⟨cursor, hcursor, rfl⟩ := Option.map_eq_some_iff.mp hasks
  obtain ⟨more, rfl⟩ := hfront
  obtain ⟨timeoutMs, ha⟩ := htold.said
  refine ⟨fun s => ?_, fun s hs => ?_, fun hnone => ?_⟩
  · rw [← h.named s, Client.answered]
    split
    · rw [Std.ExtTreeMap.mem_insert, Std.LawfulEqCmp.compare_eq_iff_eq, or_iff_right_iff_imp]
      rintro rfl
      exact h.listed _ hactive
    · rfl
  · have hold : s ∈ c.active := by
      rw [Client.answered] at hs
      split at hs
      · exact hs
      · exact (DriveClient.mem_erase_active.mp hs).2
    rw [Client.answered]
    split
    · rw [Std.ExtTreeMap.mem_insert]
      exact .inr (h.listed s hold)
    · exact h.listed s hold
  · exact (h.copies hnone).answered hactive hcursor (htold.may hnone) ha

/-! ## Every frame -/

theorem expects_answered {c : Client} {a : SwmrReadResponse} (hactive : a.streamId ∈ c.active)
    (s : String) : expects opts (c.answered opts a) s =
      if s = a.streamId then
        if continues opts a then some ⟨opts.swmrId, a.nextCursor, opts.timeoutMs⟩ else none
      else expects opts c s := by
  by_cases heq : s = a.streamId
  · subst heq
    rw [if_pos rfl]
    cases hcontinues : continues opts a with
    | true =>
        have hstays : a.streamId ∈ (c.answered opts a).active := by
          simpa [Client.answered, hcontinues] using hactive
        rw [expects, DriveClient.expects_of_active hstays, asks, Client.answered, hcontinues]
        simp
    | false =>
        have hleaves : a.streamId ∉ (c.answered opts a).active := by
          simp [Client.answered, hcontinues]
        rw [expects, DriveClient.expects_of_not_active hleaves]
        simp
  · rw [if_neg heq]
    refine DriveClient.expects_congr ?_ ?_
    · rw [Client.answered]
      split
      · rfl
      · rw [DriveClient.mem_erase_active, and_iff_right (Ne.symm heq)]
    · rw [asks, asks, Client.answered]
      split
      · rw [getElem?_insert, if_neg (Ne.symm heq)]
      · rfl

theorem posts_writeRead (s streamId : String) (cursor : Option SwmrCursor) :
    Link.posts SwmrInput.ask s [writeRead opts streamId cursor] =
      if streamId = s then [⟨opts.swmrId, cursor, opts.timeoutMs⟩] else [] := by
  by_cases heq : streamId = s <;>
    simp [Link.posts, writeRead, SwmrInput.ask, Ask.request?, heq]

theorem May.append {fed : List SwmrInput} {s : String} {r : Request}
    (h : May opts stopWhen maxDeltas fed s r) (more : List SwmrInput) :
    May opts stopWhen maxDeltas (fed ++ more) s r := by
  intro hnone c hc
  obtain ⟨later, heq⟩ := published_append stopWhen maxDeltas fed more
  rw [heq]
  exact (h hnone c hc).mono later

theorem goes_skip {fed : List SwmrInput} {taken : List SwmrOutput} {c : Client}
    (h : Has opts stopWhen maxDeltas fed taken c) :
    Link.Goes SwmrInput.ask (expects opts) (Fair Client.active) (Has opts stopWhen maxDeltas)
      (May opts stopWhen maxDeltas) fed taken (expects opts c) (loop c []) :=
  DriveClient.goes_on h

theorem polls (opts : ClientOpts) (stopWhen : StopWhen) (maxDeltas : Option Nat) :
    Link.Polls (receive opts) SwmrInput.ask Swmr.reply (expects opts) (Fair Client.active)
      (Has opts stopWhen maxDeltas) (May opts stopWhen maxDeltas)
      (Told opts stopWhen maxDeltas) := by
  refine ⟨fun fed more taken c h => h.append more, fun fed more s r h => h.append more, ?_, ?_⟩
  · intro fed taken c o s a r hhas hreply hexpects hright
    obtain ⟨front, hfront, htold⟩ := hright
    have hactive := (DriveClient.active_of_expects hexpects).1
    cases o with
    | readResponse response =>
        obtain ⟨rfl, rfl⟩ := Reply.answer.inj hreply
        have hhas' := hhas.answered hexpects hfront htold
        rw [receive_answered hactive]
        refine DriveClient.goes_loop (fun i hi => ?_) hhas' fun s => ?_
        · split at hi
          · obtain rfl := List.mem_singleton.mp hi
            exact ⟨_, _, rfl⟩
          · simp at hi
        · show Renews _ _ (expects opts (c.answered opts response) s) _
          rw [expects_answered hactive]
          cases hcontinues : continues opts response with
          | true =>
              simp only [if_true, posts_writeRead]
              by_cases heq : s = response.streamId
              · rw [if_pos heq, if_pos heq, if_pos heq.symm]
                refine .asks _ fun hnone c' hc' => ?_
                have hcopies := hhas'.copies hnone
                have hstays : response.streamId ∈ (c.answered opts response).active := by
                  simpa [Client.answered, hcontinues] using hactive
                have hcursor := hcopies.cursors response.streamId response.nextCursor hstays
                  (by simp [Client.answered, hcontinues])
                exact (hcopies.faithful response.streamId).reached (hcursor ▸ hc')
              · rw [if_neg heq, if_neg heq, if_neg (Ne.symm heq)]
                exact .same _
          | false =>
              simp only [Bool.false_eq_true, if_false]
              exact .same _
    | _ => simp [Swmr.reply, Output.reply] at hreply
  · intro fed taken c o hhas hreply
    have ho : ∀ a, o ≠ .readResponse a := by
      rintro a rfl
      exact hreply a.streamId a rfl
    cases o with
    | readResponse response => exact absurd rfl (ho response)
    | _ => exact goes_skip (hhas.skip ho)

theorem new_cursors (s : String) : (Client.new opts).cursors[s]? =
    if s ∈ opts.streamIds then some opts.initialCursor else none :=
  getElem?_ofList_const opts.streamIds opts.initialCursor s

theorem new_active (s : String) : s ∈ (Client.new opts).active ↔ s ∈ opts.streamIds := by
  show s ∈ Std.ExtTreeSet.ofList opts.streamIds compare ↔ _
  rw [Std.ExtTreeSet.mem_ofList, List.contains_iff_mem]

theorem new_listed (s : String) : s ∈ (Client.new opts).cursors ↔ s ∈ opts.streamIds := by
  rw [Std.ExtTreeMap.mem_iff_isSome_getElem?, new_cursors]
  split <;> simp_all

theorem goes_start (stopWhen : StopWhen) (maxDeltas : Option Nat) (hnodup : opts.streamIds.Nodup) :
    Link.Goes SwmrInput.ask (expects opts) (Fair Client.active) (Has opts stopWhen maxDeltas)
      (May opts stopWhen maxDeltas) [] [] (fun _ => none) (start opts) := by
  unfold start
  refine DriveClient.goes_loop (fun i hi => ?_)
    ⟨new_listed, fun s hs => (new_listed s).mpr ((new_active s).mp hs), fun hnone => ?_⟩ fun s => ?_
  · obtain ⟨s, -, rfl⟩ := List.mem_map.mp hi
    exact ⟨_, _, rfl⟩
  · refine ⟨fun s => .inl rfl, fun s cursor hs hcursor => ?_, fun s hs hs' => ?_,
      fun swmrId streamId reason hline => by simp [transcript] at hline⟩
    · rw [new_cursors, if_pos ((new_active s).mp hs)] at hcursor
      rw [← Option.some.inj hcursor, hnone]
      rfl
    · exact absurd ((new_active s).mpr ((new_listed s).mp hs)) hs'
  · rw [Link.posts, List.filterMap_map]
    by_cases hs : s ∈ opts.streamIds
    · have hothers : ∀ s' ∈ opts.streamIds, s' ≠ s →
          ((fun i => (SwmrInput.ask i).request? s) ∘ fun streamId =>
            writeRead opts streamId (Client.new opts).cursors[streamId]?.join) s' = none :=
        fun s' _ hne => if_neg hne
      have hpost : (SwmrInput.ask (writeRead opts s (Client.new opts).cursors[s]?.join)).request? s =
          some ⟨opts.swmrId, opts.initialCursor, opts.timeoutMs⟩ := by
        rw [new_cursors, if_pos hs]
        exact if_pos rfl
      rw [filterMap_eq_toList hnodup hs hothers,
        DriveClient.expects_of_active ((new_active s).mpr hs), asks, new_cursors, if_pos hs,
        Function.comp_apply, hpost]
      refine .asks _ fun hnone c hc => ?_
      rw [hnone] at hc
      simp at hc
    · have hnone : ∀ s' ∈ opts.streamIds, ((fun i => (SwmrInput.ask i).request? s) ∘
          fun streamId => writeRead opts streamId (Client.new opts).cursors[streamId]?.join) s' =
            none :=
        fun s' hs' => if_neg fun heq : s' = s => hs (heq ▸ hs')
      rw [List.filterMap_eq_nil_iff.mpr hnone,
        DriveClient.expects_of_not_active fun h => hs ((new_active s).mp h)]
      exact .same none

theorem session_converses (hnodup : opts.streamIds.Nodup) (stopWhen : StopWhen)
    (maxDeltas : Option Nat) {moves : List (Move SwmrInput)}
    (hmoves : ∀ i, .prompt i ∈ moves → prompts i = true) :
    Link.Converses (fun n : SwmrNode => n.readers.desk) SwmrInput.ask Swmr.reply (expects opts)
      (Fair Client.active) (Has opts stopWhen maxDeltas) (May opts stopWhen maxDeltas)
      (Told opts stopWhen maxDeltas) (session opts stopWhen maxDeltas moves) := by
  refine Link.run_converses (t := SwmrNode.new stopWhen maxDeltas) Streams.desk_new
    (honest opts stopWhen maxDeltas) (polls opts stopWhen maxDeltas)
    (goes_start stopWhen maxDeltas hnodup) fun i hi => ?_
  have hprompts := hmoves i hi
  cases i <;> simp_all [prompts, SwmrInput.ask]

theorem session_node (opts : ClientOpts) (stopWhen : StopWhen) (maxDeltas : Option Nat)
    (moves : List (Move SwmrInput)) : (session opts stopWhen maxDeltas moves).node =
      run stopWhen maxDeltas (session opts stopWhen maxDeltas moves).fed :=
  (Link.run_recorded (start opts) (SwmrNode.new stopWhen maxDeltas) moves).node

/-! ## The session -/

/-- A reader whose read is held stands at the head. -/
theorem held_cursor {P : List Published} {n : SwmrNode} (h : Recorded P n)
    {cursor : Option SwmrCursor} (hreached : ∀ c, cursor = some c → Reached P c)
    {swmrId s : String} {timeoutMs : Option Int}
    (hnone : n.resolve swmrId s cursor timeoutMs = none) : cursor = n.currentCursor := by
  cases hs : n.snapshot with
  | none =>
      rw [SwmrNode.currentCursor, hs, Option.map_none]
      cases cursor with
      | none => rfl
      | some c =>
          obtain ⟨p, hp, hepoch⟩ := (hreached c rfl).stored
          have hlt := (h.empty hs).2 p hp
          have hsame := (SwmrNode.cursor_of_held hnone).1
          omega
  | some snapshot =>
      rw [SwmrNode.currentCursor, hs, Option.map_some]
      cases cursor with
      | none => simp [SwmrNode.resolve, hs] at hnone
      | some c =>
          obtain ⟨hepoch, hhead⟩ := SwmrNode.cursor_of_held hnone
          rw [← hepoch, ← hhead (by rw [hs]; rfl)]

theorem held_at_rest {opts : ClientOpts} (hnodup : opts.streamIds.Nodup) {stopWhen : StopWhen}
    {maxDeltas : Option Nat} {moves : List (Move SwmrInput)}
    (hmoves : ∀ i, .prompt i ∈ moves → prompts i = true)
    {l : Link Client Exit SwmrNode SwmrInput SwmrOutput}
    (hl : session opts stopWhen maxDeltas moves = l) {c : Client} (hc : l.client = .running c)
    (hup : l.up = []) (hdown : l.down = []) (s : String) (hs : s ∈ c.active) :
    ∃ held cursor, l.node.readers.heldOf s = some held ∧ c.cursors[s]? = some cursor ∧
      held.request = ⟨opts.swmrId, cursor, opts.timeoutMs⟩ ∧
      l.node.answer s held.request = none := by
  subst hl
  obtain ⟨⟨hhas, -⟩, hstanding⟩ :=
    (session_converses hnodup stopWhen maxDeltas hmoves).running c hc
  obtain ⟨cursor, hcursor⟩ := exists_getElem?_of_mem (hhas.listed s hs)
  have hrest := DriveClient.held_of_rest (fun n : SwmrNode => n.readers.heldOf) (hstanding s) hup hdown
  rw [DriveClient.expects_of_active hs, asks, hcursor] at hrest
  obtain ⟨held, hheld, hrequest⟩ := Option.map_eq_some_iff.mp hrest
  refine ⟨held, cursor, hheld, hcursor, hrequest, ?_⟩
  rw [session_node] at hheld ⊢
  exact SwmrNode.answer_of_settled (run_stands stopWhen maxDeltas _).settled hheld

/-- A stream that is named twice is read twice, and its second end is refused. -/
example : (session ⟨"a", ["s", "s", "r"], none, none, false⟩ .explicitOnly none
    [.prompt .seal, .serve, .serve, .hear, .hear]).client.outcome = some .refused := by decide

/-- **Mirroring.**  The transcript of a client that begins without a cursor gives, for each
stream and at every moment, a copy that is empty or a published snapshot with exactly the
deltas after it, and it never says that a cursor was invalid.  When the client has ended,
each of its streams was told last that nothing new had come in time, or has to refresh, or
stands at the head of a node that takes no writes any more; and while it waits, a stream
that it still reads stands at the head as soon as nothing is in the pipes. -/
theorem swmr_client_mirrors (opts : ClientOpts) (hinitial : opts.initialCursor = none)
    (hnodup : opts.streamIds.Nodup) (stopWhen : StopWhen) (maxDeltas : Option Nat)
    (moves : List (Move SwmrInput)) (hmoves : ∀ i, .prompt i ∈ moves → prompts i = true) :
    let l := session opts stopWhen maxDeltas moves
    (∀ s, Faithful (published stopWhen maxDeltas l.fed) (copyOf opts s l.taken)) ∧
    (∀ swmrId streamId reason, .refreshRequired swmrId streamId reason ∈ transcript opts l.taken →
      reason = "source_changed" ∨ reason = "retention_expired") ∧
    (∀ c state, l.client = .stopped c (.finalLine state) → ∀ s ∈ opts.streamIds,
      ∃ a, (heard s l.taken).getLast? = some a ∧
        (a.state = .wouldBlock ∨ refreshes opts a = true ∨
          l.node.terminal = true ∧ (copyOf opts s l.taken).cursor = l.node.currentCursor)) ∧
    (∀ c, l.client = .running c → l.up = [] → l.down = [] → ∀ s ∈ c.active,
      (copyOf opts s l.taken).cursor = l.node.currentCursor) := by
  intro l
  have hconverses := session_converses hnodup stopWhen maxDeltas hmoves
  have hcopies := hconverses.known.copies hinitial
  have hnode : l.node = run stopWhen maxDeltas l.fed := session_node opts stopWhen maxDeltas moves
  refine ⟨hcopies.faithful, hcopies.reasons, fun c state hc s hs => ?_,
    fun c hc hup hdown s hs => ?_⟩
  · obtain ⟨hhas, hfair⟩ := hconverses.stopped c (.finalLine state) hc
    rw [hnode]
    exact (hhas.copies hinitial).rest s ((hhas.named s).mpr hs) (DriveClient.not_active hfair s)
  · obtain ⟨held, cursor, -, hcursor, hrequest, hwaits⟩ :=
      held_at_rest hnodup hmoves rfl hc hup hdown s hs
    obtain ⟨⟨hhas, -⟩, -⟩ := hconverses.running c hc
    have hmine := (hhas.copies hinitial).cursors s cursor hs hcursor
    rw [← hmine, hnode]
    rw [SwmrNode.answer, hrequest, hnode] at hwaits
    refine held_cursor (run_recorded stopWhen maxDeltas l.fed) (fun c' hc' => ?_) hwaits
    exact ((hhas.copies hinitial).faithful s).reached (hmine ▸ hc')

/-- A client under the expiry profile, whose epoch ends while its read is held. -/
theorem swmr_client_mirrors_refresh :
    let opts : ClientOpts := ⟨"a", ["s"], none, none, true⟩
    let l := session opts .lastReader (some 1)
      [.prompt (.snapshotPush "w" [1]), .serve, .hear, .serve, .prompt (.deltaPush "w" [2]), .hear,
        .serve, .prompt (.reset "w" .producerRequested none), .hear]
    l.client.outcome = some (.finalLine "done") ∧
      copyOf opts "s" l.taken = ⟨some ⟨1, 0⟩, some ⟨0, [1]⟩, [⟨0, 1, [2]⟩]⟩ ∧
      .refreshRequired "a" "s" "source_changed" ∈ transcript opts l.taken ∧
      ∀ s, Faithful (published .lastReader (some 1) l.fed) (copyOf opts s l.taken) := by
  intro opts l
  have hmirrors := swmr_client_mirrors opts rfl (by decide) .lastReader (some 1)
    [.prompt (.snapshotPush "w" [1]), .serve, .hear, .serve, .prompt (.deltaPush "w" [2]), .hear,
      .serve, .prompt (.reset "w" .producerRequested none), .hear] (by simp [prompts])
  exact ⟨by decide, by decide, by decide, hmirrors.1⟩

end TautShape.SwmrTool
