import TautShape.Tool.Adapter
import TautShape.Log.Exchange
import TautShape.Lib.Echo
/-!
# Responses carry the log id of their request

The adapter's map from streams to log ids is what a shell keeps that echoes a label of
the last request, and the engine holds at most one read of a stream: the log id on a
response is that of the `Read` frame it answers, however long the read was held.
-/

namespace TautShape.Tool

open TautShape.Lib
open TautShape.Log (Input Output Response Request StreamId StopWhen LogNode LogLedger exchange)

variable {β ε : Type}

/-! ## The frames of a session -/

def readRequest? (c : CborReader β ε) (frame : Frame β) : Option LogReadRequest :=
  match LogMsgType.fromWire frame.tag.toNat with
  | some .read => (LogReadRequest.fromCbor c frame.body).toOption
  | _ => none

def readRequests (c : CborReader β ε) (frames : List (Frame β)) : List LogReadRequest :=
  frames.filterMap (readRequest? c)

/-- The inputs that the frames are decoded to; a frame that is refused is none. -/
def inputsOf (c : CborReader β ε) (frames : List (Frame β)) : List Input :=
  frames.filterMap fun frame => (decodeInput c frame).toOption

def emissions (c : CborReader β ε) (w : CborWriter β) :
    LogAdapter → List (Frame β) → List (EngineEmission β)
  | _, [] => []
  | a, frame :: rest =>
      (process c w a frame).2.toOption.getD [] ++ emissions c w (process c w a frame).1 rest

def EngineEmission.responseFrame? (e : EngineEmission β) : Option (Response × UInt8 × β) :=
  match e.output with
  | .response response => some (response, e.effect.frame)
  | _ => none

/-! ## Which frames are reads -/

theorem readEcho_eq (c : CborReader β ε) (frame : Frame β) :
    readEcho c frame =
      (readRequest? c frame).map fun req => { logId := req.logId, streamId := req.streamId } := by
  rw [readEcho, readRequest?]
  cases LogMsgType.fromWire frame.tag.toNat with
  | none => rfl
  | some tag =>
      cases tag with
      | read => cases LogReadRequest.fromCbor c frame.body <;> rfl
      | _ => rfl

theorem decodeInput_of_read {c : CborReader β ε} {frame : Frame β} {req : LogReadRequest}
    (h : readRequest? c frame = some req) : decodeInput c frame = .ok req.input := by
  unfold readRequest? at h
  split at h
  · rename_i htag
    rw [decodeInput, htag]
    cases hbody : LogReadRequest.fromCbor c frame.body with
    | ok m =>
        rw [hbody] at h
        obtain rfl := Option.some.inj h
        rfl
    | error e =>
        rw [hbody] at h
        simp [Except.toOption] at h
  · simp at h

theorem ok_of_orMalformed {c : CborReader β ε} {α : Type} {tag : LogMsgType} {body : Except ε α}
    {build : α → Input} {input : Input}
    (h : (do return build (← orMalformed c tag body)) = Except.ok input) :
    ∃ m, input = build m := by
  cases body with
  | ok m => exact ⟨m, (Except.ok.inj h).symm⟩
  | error e => exact absurd h (by simp [orMalformed, bind, Except.bind])

theorem ask_of_not_read {c : CborReader β ε} {frame : Frame β} {input : Input}
    (h : readRequest? c frame = none) (hdecode : decodeInput c frame = .ok input) :
    ∀ s r, input.ask ≠ .read s r := by
  rw [decodeInput] at hdecode
  rw [readRequest?] at h
  cases htag : LogMsgType.fromWire frame.tag.toNat with
  | none => simp [htag] at hdecode
  | some tag =>
      rw [htag] at hdecode h
      cases tag with
      | push =>
          obtain ⟨m, rfl⟩ := ok_of_orMalformed hdecode
          simp [Input.ask]
      | «seal» =>
          obtain rfl := Except.ok.inj hdecode
          simp [Input.ask]
      | close =>
          obtain ⟨m, rfl⟩ := ok_of_orMalformed hdecode
          simp [Input.ask]
      | read =>
          cases hbody : LogReadRequest.fromCbor c frame.body with
          | ok m => simp [hbody, Except.toOption] at h
          | error e => simp [hbody, orMalformed, bind, Except.bind] at hdecode
      | endStream =>
          obtain ⟨m, rfl⟩ := ok_of_orMalformed hdecode
          simp [Input.ask]
      | timerExpired =>
          obtain ⟨m, rfl⟩ := ok_of_orMalformed hdecode
          simp [Input.ask]
      | evict =>
          obtain ⟨m, rfl⟩ := ok_of_orMalformed hdecode
          simp [Input.ask]
      | readResponse | setTimer | cancelTimer | producerStop | diagnostic => simp at hdecode

/-! ## The session as an exchange with labels -/

/-- The label of a frame: the log id of a `Read`. -/
def labelOf (c : CborReader β ε) (frame : Frame β) : String :=
  ((readRequest? c frame).map LogReadRequest.logId).getD ""

/-- What the frames ask of the engine and what it replies, each with its label. -/
def labelled (c : CborReader β ε) :
    LogNode → List (Frame β) → List (String × Ask StreamId Request × List (Reply StreamId Response))
  | _, [] => []
  | n, frame :: rest =>
      match decodeInput c frame with
      | .ok input =>
          (labelOf c frame, input.ask, (n.handle input).2.map Output.reply) ::
            labelled c (n.handle input).1 rest
      | .error _ => labelled c n rest

theorem labelled_exchange (c : CborReader β ε) (n : LogNode) (frames : List (Frame β)) :
    (labelled c n frames).map Prod.snd =
      (trace LogNode.handle n (inputsOf c frames)).map fun p =>
        (p.1.ask, p.2.map Output.reply) := by
  induction frames generalizing n with
  | nil => rfl
  | cons frame rest ih =>
      rw [labelled, inputsOf, List.filterMap_cons]
      cases hdecode : decodeInput c frame with
      | ok input =>
          simp only [Except.toOption, List.map_cons, ih]
          rfl
      | error d => exact ih n

theorem labels_labelled (c : CborReader β ε) (n : LogNode) (frames : List (Frame β)) :
    labels (labelled c n frames) = (readRequests c frames).map LogReadRequest.logId := by
  induction frames generalizing n with
  | nil => rfl
  | cons frame rest ih =>
      rw [labelled, readRequests, List.filterMap_cons]
      cases hread : readRequest? c frame with
      | some req =>
          rw [decodeInput_of_read hread]
          show labelOf c frame :: labels (labelled c _ rest) = req.logId :: _
          rw [ih, labelOf, hread]
          rfl
      | none =>
          cases hdecode : decodeInput c frame with
          | error d => exact ih n
          | ok input =>
              have hask := ask_of_not_read hread hdecode
              show labels ((labelOf c frame, input.ask, _) :: labelled c _ rest) = _
              rw [labels, List.filterMap_cons]
              cases hcase : input.ask with
              | read s r => exact absurd hcase (hask s r)
              | _ => exact ih _

/-! ## What the adapter writes -/

def LogAdapter.kept (a : LogAdapter) (s : StreamId) : Option String := a.streamLogIds[s]?

def responseWith (logId : String) (resp : Response) : LogReadResponse where
  logId
  streamId := resp.streamId
  records := resp.records.map fun r => { seq := asI64 (.ofNat r.seq), payload := r.payload }
  nextCursor := { seq := asI64 (.ofNat resp.nextCursor.seq) }
  state := toWireState resp.state
  error := resp.error.map toWireError

def answerFrame (w : CborWriter β) (p : (StreamId × Response) × Option String) :
    Response × UInt8 × β :=
  (p.1.2, 7, (responseWith (p.2.getD "") p.1.2).toCbor w)

theorem LogAdapter.kept_decodeInput {c : CborReader β ε} {frame : Frame β} {input : Input}
    (hdecode : Tool.decodeInput c frame = .ok input) (a : LogAdapter) :
    (a.decodeInput c frame).1.kept = remember a.kept (labelOf c frame) input.ask := by
  funext s
  rw [LogAdapter.decodeInput, readEcho_eq]
  cases hread : readRequest? c frame with
  | some req =>
      rw [decodeInput_of_read hread] at hdecode
      obtain rfl := Except.ok.inj hdecode
      show (a.streamLogIds.insert req.streamId req.logId)[s]? =
        Function.update a.kept req.streamId (some (labelOf c frame)) s
      rw [getElem?_insert, Function.update_apply, labelOf, hread]
      simp only [eq_comm (a := s)]
      rfl
  | none =>
      have hask := ask_of_not_read hread hdecode
      show a.kept s = remember a.kept (labelOf c frame) input.ask s
      cases hcase : input.ask with
      | read s r => exact absurd hcase (hask s r)
      | _ => rfl

theorem responseFrames_step (w : CborWriter β) (a : LogAdapter) (out : List Output) :
    (out.map fun output => (⟨output, a.encodeOutput w output⟩ : EngineEmission β)).filterMap
        EngineEmission.responseFrame? =
      (tags a.kept (out.map Output.reply)).map (answerFrame w) := by
  induction out with
  | nil => rfl
  | cons output out ih =>
      rw [List.map_cons, List.map_cons, List.filterMap_cons, tags, List.filterMap_cons, ih]
      cases output <;> rfl

theorem LogAdapter.decodeInput_of_error {c : CborReader β ε} {frame : Frame β}
    {d : AdapterDiagnostic} (hdecode : Tool.decodeInput c frame = .error d) (a : LogAdapter) :
    a.decodeInput c frame = (a, .error d) := by
  rw [LogAdapter.decodeInput, readEcho_eq]
  cases hread : readRequest? c frame with
  | some req => simp [decodeInput_of_read hread] at hdecode
  | none => rw [hdecode]; rfl

theorem responseFrames_eq (c : CborReader β ε) (w : CborWriter β) (a : LogAdapter)
    (frames : List (Frame β)) :
    (emissions c w a frames).filterMap EngineEmission.responseFrame? =
      (echoes a.kept (labelled c a.node frames)).map (answerFrame w) := by
  induction frames generalizing a with
  | nil => rfl
  | cons frame rest ih =>
      rw [emissions, List.filterMap_append, ih, labelled]
      cases hdecode : decodeInput c frame with
      | ok input =>
          have hkept := a.kept_decodeInput hdecode
          have hprocess := process_of_ok (w := w) hdecode a
          have hnode : (a.decodeInput c frame).1.node = a.node := a.node_decodeInput
          rw [hprocess, echoes, List.map_append, ← hkept, ← hnode]
          congr 1
          exact responseFrames_step w _ _
      | error d =>
          rw [process, a.decodeInput_of_error hdecode]
          rfl

/-! ## Routing -/

/-- A written response answers a request: it is on the frame with the log id of that very
`Read`. -/
def Routed (w : CborWriter β) (requests : List LogReadRequest) (sent : Response × UInt8 × β)
    (f : Settled StreamId Request Response) : Prop :=
  f.fate = .answered sent.1 ∧ ∃ (request : LogReadRequest) (m : LogReadResponse),
    requests[f.id]? = some request ∧ request.streamId = f.stream ∧ sent.2 = (7, m.toCbor w) ∧
      m.logId = request.logId ∧ m.streamId = request.streamId

theorem forall₂_filterMap {α γ : Type*} (g : α → Option γ) (l : List α) :
    List.Forall₂ (fun b a => a ∈ l ∧ g a = some b) (l.filterMap g)
      (l.filter fun a => (g a).isSome) := by
  have hsub : ∀ l' : List α, (∀ a ∈ l', a ∈ l) →
      List.Forall₂ (fun b a => a ∈ l ∧ g a = some b) (l'.filterMap g)
        (l'.filter fun a => (g a).isSome) := by
    intro l' hl'
    induction l' with
    | nil => exact .nil
    | cons a l' ih =>
        have hrest := ih fun b hb => hl' b (List.mem_cons_of_mem a hb)
        cases hg : g a with
        | none =>
            rw [List.filterMap_cons_none hg, List.filter_cons_of_neg (by simp [hg])]
            exact hrest
        | some b =>
            rw [List.filterMap_cons_some hg, List.filter_cons_of_pos (by simp [hg])]
            exact .cons ⟨hl' a List.mem_cons_self, hg⟩ hrest
  exact hsub l fun a ha => ha

def LogReadRequest.request (m : LogReadRequest) : Request :=
  ⟨m.cursor.map fun cursor => ⟨(asU64 cursor.seq).toNat⟩,
    ⟨m.maxRecords.map asU32, m.maxBytes.map asU64⟩, m.timeoutMs.map fun n => (asU64 n).toNat⟩

theorem asked_labelled (c : CborReader β ε) (n : LogNode) (frames : List (Frame β)) :
    Ledger.asked ((labelled c n frames).map Prod.snd) =
      (readRequests c frames).map fun m => (m.streamId, m.request) := by
  induction frames generalizing n with
  | nil => rfl
  | cons frame rest ih =>
      rw [labelled, readRequests, List.filterMap_cons]
      cases hread : readRequest? c frame with
      | some req =>
          rw [decodeInput_of_read hread]
          show (req.streamId, req.request) :: Ledger.asked ((labelled c _ rest).map Prod.snd) = _
          rw [ih]
          rfl
      | none =>
          cases hdecode : decodeInput c frame with
          | error d => exact ih n
          | ok input =>
              have hask := ask_of_not_read hread hdecode
              show Ledger.asked ((input.ask, _) :: (labelled c _ rest).map Prod.snd) = _
              rw [Ledger.asked, List.filterMap_cons]
              cases hcase : input.ask with
              | read s r => exact absurd hcase (hask s r)
              | _ => exact ih _

/-- **Every response carries the log id of the `Read` it answers.**  The requests of a
session are its `Read` frames, the books of the session say which of them each response
answered, and the frame written for it has the log id of that one. -/
theorem responses_routed (c : CborReader β ε) (w : CborWriter β) (stopWhen : StopWhen)
    (frames : List (Frame β)) :
    let events := exchange { stopWhen } (inputsOf c frames)
    ∃ L : LogLedger, Ledger.audit events = some L ∧
      L.Accounts (Ledger.asked events) (Ledger.expiries events) (Ledger.replies events) ∧
      Ledger.asked events =
        (readRequests c frames).map (fun m => (m.streamId, m.request)) ∧
      List.Forall₂ (Routed w (readRequests c frames))
        ((emissions c w (LogAdapter.new stopWhen) frames).filterMap EngineEmission.responseFrame?)
        (L.settled.filter fun f => f.answer?.isSome) := by
  intro events
  obtain ⟨L, haudit, -, hfair⟩ := Log.run_books { stopWhen } (inputsOf c frames)
  have haccounts := Ledger.audit_accounts haudit
  have hevents : (labelled c (LogNode.new { stopWhen }) frames).map Prod.snd = events :=
    labelled_exchange c _ frames
  have hasked : Ledger.asked events =
      (readRequests c frames).map (fun m => (m.streamId, m.request)) := by
    rw [← hevents]
    exact asked_labelled c _ frames
  refine ⟨L, haudit, haccounts, hasked, ?_⟩
  -- the frames in terms of the answered requests and their labels
  have hfresh : (LogAdapter.new stopWhen).kept = fun _ => none := by
    funext s
    simp [LogAdapter.kept, LogAdapter.new]
  have hframes : (emissions c w (LogAdapter.new stopWhen) frames).filterMap
      EngineEmission.responseFrame? = L.settled.filterMap fun f => f.answer?.map fun answer =>
        answerFrame w (answer, ((readRequests c frames).map LogReadRequest.logId)[f.id]?) := by
    have haudit' : Ledger.audit
        ((labelled c (LogNode.new { stopWhen }) frames).map Prod.snd) = some L := by
      rw [hevents]
      exact haudit
    have hechoes := echoes_eq_answeredLabels haudit'
    rw [labels_labelled] at hechoes
    have hwritten := responseFrames_eq c w (LogAdapter.new stopWhen) frames
    rw [hfresh] at hwritten
    rw [hwritten]
    show (echoes (fun _ => none) (labelled c (LogNode.new { stopWhen }) frames)).map _ = _
    rw [hechoes, Ledger.answeredLabels, List.map_filterMap]
    simp only [Option.map_map]
    rfl
  rw [hframes]
  have hpairs := forall₂_filterMap (fun f : Settled StreamId Request Response =>
    f.answer?.map fun answer =>
      answerFrame w (answer, ((readRequests c frames).map LogReadRequest.logId)[f.id]?)) L.settled
  simp only [Option.isSome_map] at hpairs
  refine hpairs.imp ?_
  rintro sent f ⟨hmem, hsent⟩
  have hask := haccounts.settled_asked f hmem
  obtain ⟨front, -, hthen⟩ := hfair f hmem
  rw [hasked, List.getElem?_map, Option.map_eq_some_iff] at hask
  obtain ⟨request, hrequest, hstream⟩ := hask
  obtain ⟨answer, hanswer, rfl⟩ := Option.map_eq_some_iff.mp hsent
  obtain ⟨response, hresponse, rfl⟩ := Option.map_eq_some_iff.mp hanswer
  have hfate : f.fate = .answered response := by
    cases hcase : f.fate with
    | answered a =>
        rw [hcase] at hresponse
        exact congrArg Fate.answered (Option.some.inj hresponse)
    | superseded => simp [hcase, Fate.answer?] at hresponse
    | dropped => simp [hcase, Fate.answer?] at hresponse
  have hstream' : response.streamId = f.stream := (hthen response hfate).stream
  obtain ⟨hid, -⟩ := Prod.mk.inj hstream
  refine ⟨hfate, request, responseWith request.logId response, hrequest, hid, ?_, rfl, ?_⟩
  · rw [answerFrame, List.getElem?_map, hrequest]
    rfl
  · exact hstream'.trans hid.symm

end TautShape.Tool
