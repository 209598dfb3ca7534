import TautShape.Tool.Processes
/-!
# Crossed pipes

What the two processes of the log tool write to each other are the messages of a session,
each in its frame.
-/

namespace TautShape.LogTools

open TautShape.Lib TautShape.Log TautShape.Tool
open TautShape.LogClient (Client produces prompts scripted readRequest)

variable {β ε : Type} {c : ResponseReader β ε} {w : CborWriter β} {opts : ClientOpts}

/-! ## Messages in their frames -/

/-- The log ids that the adapter knows once the client has read. -/
def labels (opts : ClientOpts) : BTreeMap String String :=
  (∅ : BTreeMap String String).insert opts.streamId opts.logId

def upFrame (w : CborWriter β) (opts : ClientOpts) : Input → Frame β
  | .read _ cursor _ _ => requestFrame w opts (cursor.getD Cursor.start).seq
  | input => producerFrame w input

def downFrame (w : CborWriter β) (opts : ClientOpts) (o : Output) : Frame β :=
  frameOf (encodeOutput w (labels opts) o)

/-- What the client writes: its reads, and what its script has a producer do. -/
inductive Written (opts : ClientOpts) : Input → Prop
  | read (cursor : Nat) (h : cursor < 2 ^ 64) : Written opts (readRequest opts.toOpts cursor)
  | scripted (input : Input) (hscript : input ∈ scripted opts.toOpts)
      (h : produces input = true) (hu64 : ∀ n ∈ u64s input, n < 2 ^ 64) : Written opts input

theorem decode_request (h : InvertsAll c w) (opts : ClientOpts) {cursor : Nat}
    (hcursor : cursor < 2 ^ 64) : decodeInput c.toCborReader (requestFrame w opts cursor) =
      .ok (readRequest opts.toOpts cursor) := by
  have hrecords : (opts.maxRecords.map fun n => asI64 n.toUInt64).map asU32 = opts.maxRecords := by
    cases opts.maxRecords with
    | none => rfl
    | some n => exact congrArg some (asU32_asI64 n)
  rw [decodeInput, requestFrame, fromWire_wire]
  simp only [frameOf, h.readRequest]
  show Except.ok (Input.read opts.streamId (some ⟨(asU64 (asI64 (.ofNat cursor))).toNat⟩)
    ⟨(opts.maxRecords.map fun n => asI64 n.toUInt64).map asU32, none⟩ none) = _
  rw [asU64_ofNat hcursor, hrecords]
  rfl

theorem echo_request (h : InvertsAll c w) (opts : ClientOpts) (cursor : Nat) :
    readEcho c.toCborReader (requestFrame w opts cursor) = some ⟨opts.logId, opts.streamId⟩ := by
  rw [readEcho, requestFrame, fromWire_wire]
  simp only [frameOf, h.readRequest]

theorem decode_produced (h : InvertsAll c w) {input : Input} (hproduces : produces input = true)
    (hu64 : ∀ n ∈ u64s input, n < 2 ^ 64) :
    decodeInput c.toCborReader (producerFrame w input) = .ok input := by
  have hcodecs := h.codecsRoundTrip
  rw [decodeInput, producerFrame]
  cases input with
  | push payload =>
      rw [encodeInput, fromWire_wire]
      simp only [frameOf, hcodecs.push]
      rfl
  | «seal» =>
      rw [encodeInput, fromWire_wire]
      rfl
  | close error =>
      rw [encodeInput, fromWire_wire]
      simp only [frameOf, hcodecs.close]
      show Except.ok (Input.close ((error.map toWireError).map fromWireError)) = _
      cases error with
      | none => rfl
      | some e => exact congrArg (fun e => Except.ok (Input.close (some e))) (fromWireError_toWireError e)
  | evict upToSeq =>
      rw [encodeInput, fromWire_wire]
      simp only [frameOf, hcodecs.evict]
      show Except.ok (Input.evict (asU64 (asI64 (.ofNat upToSeq))).toNat) = _
      rw [asU64_ofNat (hu64 upToSeq (by simp [u64s]))]
  | _ => simp [produces] at hproduces

theorem echo_produced {input : Input} (hproduces : produces input = true) :
    readEcho c.toCborReader (producerFrame w input) = none := by
  rw [readEcho, producerFrame]
  cases input with
  | push | «seal» | close | evict =>
      rw [encodeInput, fromWire_wire]
  | _ => simp [produces] at hproduces

theorem upFrame_produced {input : Input} (hproduces : produces input = true) :
    upFrame w opts input = producerFrame w input := by
  cases input <;> first | rfl | simp [produces] at hproduces

theorem Written.decode (hinverts : InvertsAll c w) {input : Input} (h : Written opts input) :
    decodeInput c.toCborReader (upFrame w opts input) = .ok input := by
  cases h with
  | read cursor hcursor => exact decode_request hinverts opts hcursor
  | scripted _ hscript hproduces hu64 =>
      rw [upFrame_produced hproduces]
      exact decode_produced hinverts hproduces hu64

/-- What the adapter knows after it has decoded a frame. -/
theorem Written.label (hinverts : InvertsAll c w) {input : Input} (h : Written opts input)
    (a : LogAdapter)
    (hlabel : input.wants.request? opts.streamId = none →
      a.streamLogIds[opts.streamId]? = some opts.logId) :
    (a.decodeInput c.toCborReader (upFrame w opts input)).1.streamLogIds[opts.streamId]? =
      some opts.logId := by
  cases h with
  | read cursor hcursor =>
      have hecho := echo_request hinverts opts cursor
      show (a.decodeInput c.toCborReader (requestFrame w opts cursor)).1.streamLogIds[_]? = _
      rw [LogAdapter.decodeInput, hecho]
      simp
  | scripted _ hscript hproduces hu64 =>
      rw [upFrame_produced hproduces, LogAdapter.decodeInput, echo_produced hproduces]
      exact hlabel (LogClient.wants_produces hproduces _)

/-! ## One input of the engine -/

theorem encodeOutput_labels {ids : BTreeMap String String} {o : Output}
    (h : ∀ r, o = .response r → r.streamId = opts.streamId ∧
      ids[opts.streamId]? = some opts.logId) :
    encodeOutput w ids o = encodeOutput w (labels opts) o := by
  cases o with
  | response r =>
      obtain ⟨hmine, hlabel⟩ := h r rfl
      have hsame : readResponse r ids = readResponse r (labels opts) := by
        rw [readResponse, readResponse, hmine, hlabel, labels]
        simp
      rw [encodeOutput, encodeOutput, hsame]
  | _ => rfl

theorem injectStep_eq {a : LogAdapter} {input : Input}
    (h : ∀ r, .response r ∈ (a.node.handle input).2 → r.streamId = opts.streamId ∧
      a.streamLogIds[opts.streamId]? = some opts.logId) :
    injectStep w a input = ({ a with node := (a.node.handle input).1 },
      (a.node.handle input).2.map (downFrame w opts)) := by
  rw [injectStep, dispatch, LogAdapter.dispatch]
  dsimp only
  rw [framesOf, List.map_map]
  refine Prod.ext rfl (List.map_congr_left fun o ho => ?_)
  have hencode : encodeOutput w a.streamLogIds o = encodeOutput w (labels opts) o :=
    encodeOutput_labels fun r hr => h r (hr ▸ ho)
  show (⟨.ofNat (encodeOutput w a.streamLogIds o).1.wire, (encodeOutput w a.streamLogIds o).2⟩ :
    Frame β) = frameOf (encodeOutput w (labels opts) o)
  rw [hencode]
  rfl

/-- The adapter knows the log id of a read that the engine holds. -/
structure Labelled (opts : ClientOpts) (a : LogAdapter) (n : LogNode) : Prop where
  node : a.node = n
  label : ∀ k, n.desk.kept opts.streamId = some k →
    a.streamLogIds[opts.streamId]? = some opts.logId

theorem Labelled.inject {a : LogAdapter} {n : LogNode} (h : Labelled opts a n) {input : Input}
    {tells : Want → Response → Prop}
    (hpassed : Desk.Passed tells n.desk opts.streamId input.wants
      ((n.handle input).1.desk, (n.handle input).2.map Output.reply))
    (hmine : ∀ r, .response r ∈ (n.handle input).2 → r.streamId = opts.streamId)
    (hasked : input.wants.request? opts.streamId ≠ none →
      a.streamLogIds[opts.streamId]? = some opts.logId) :
    (injectStep w a input).2 = (n.handle input).2.map (downFrame w opts) ∧
      Labelled opts (injectStep w a input).1 (n.handle input).1 := by
  obtain ⟨rfl, hlabel⟩ := h
  have hknown : a.node.desk.pending opts.streamId input.wants ≠ none →
      a.streamLogIds[opts.streamId]? = some opts.logId := by
    intro hpending
    cases hrequest : input.wants.request? opts.streamId with
    | some r => exact hasked (by simp [hrequest])
    | none =>
        rw [Desk.pending, hrequest, Option.none_or] at hpending
        cases hkept : a.node.desk.kept opts.streamId with
        | none => simp [hkept] at hpending
        | some k => exact hlabel k hkept
  have hstep : injectStep w a input = ({ a with node := (a.node.handle input).1 },
      (a.node.handle input).2.map (downFrame w opts)) := by
    refine injectStep_eq fun r hr => ⟨hmine r hr, hknown ?_⟩
    cases hpassed with
    | told want r' hpending htells htold hkept => simp [hpending]
    | untold htold hkept =>
        have hmem : r ∈ Desk.told opts.streamId ((a.node.handle input).2.map Output.reply) := by
          rw [← LogClient.responses_eq_told hmine]
          exact List.mem_filterMap.mpr ⟨_, hr, rfl⟩
        have htold : Desk.told opts.streamId ((a.node.handle input).2.map Output.reply) = [] := htold
        simp [htold] at hmem
  rw [hstep]
  refine ⟨rfl, rfl, fun k hk => hknown ?_⟩
  cases hpassed with
  | told want r' hpending htells htold hkept => simp [hpending]
  | untold htold hkept =>
      have hkept : ((a.node.handle input).1.desk.kept opts.streamId).map Kept.request =
        a.node.desk.pending opts.streamId input.wants := hkept
      rw [← hkept, hk]
      simp

/-! ## The two processes and their session -/

def pushes : Input → Bool
  | .push _ => true
  | _ => false

def lines (opts : ClientOpts) (taken : List Output) : List Line :=
  (responses taken).map fun r => .response (readResponse r (labels opts))

/-- What the client shows of what it has heard. -/
inductive Shows (opts : ClientOpts) (taken : List Output) :
    Party Console PumpEnd → Party Client String → Prop
  | running (k : Client) : Shows opts taken (.running ⟨k, lines opts taken⟩) (.running k)
  | stopped (k : Client) (state : String) :
      Shows opts taken (.stopped ⟨k, lines opts taken ++ [.final state]⟩ (.exit 0))
        (.stopped k state)

theorem Shows.exit {taken : List Output} {near : Party Console PumpEnd}
    {client : Party Client String} (h : Shows opts taken near client)
    (hstopped : near.outcome.isSome = true) : near.outcome = some (.exit 0) := by
  cases h with
  | running k => simp [Party.outcome] at hstopped
  | stopped k state => rfl

def NodeProcess.left (p : NodeProcess) : List Input :=
  (p.pending.map Pending.drainRemaining).getD []

theorem NodeProcess.left_eq {p : NodeProcess} {pending : Pending Input}
    (hpending : p.pending = some pending) : p.left = pending.drainRemaining := by
  rw [left, hpending]
  rfl

theorem NodeProcess.left_takeDue {p : NodeProcess} {pending : Pending Input}
    (hpending : p.pending = some pending) (frames : Nat) : p.left =
      (pending.takeDue frames).1 ++ (pending.takeDue frames).2.drainRemaining := by
  rw [left_eq hpending, pending.takeDue_drain]

/-- What the two processes have to do with a session.  `left` is what the script of the node
still has. -/
structure Mirrors (w : CborWriter β) (opts : ClientOpts) (config : Config) (script : List Input)
    (near : Party Console PumpEnd) (ups : List (Frame β)) (runtime : LogAdapter)
    (left : List Input) (downs : List (Frame β)) (l : Link Client String LogNode Input Output) :
    Prop where
  reading : LogClient.Reading opts.toOpts config l
  ups_eq : ups = l.up.map (upFrame w opts)
  downs_eq : downs = l.down.map (downFrame w opts)
  written : ∀ i ∈ l.up, Written opts i
  labelled : Labelled opts runtime l.node
  shows : Shows opts l.taken near l.client
  fed : ∀ i ∈ l.fed, Written opts i ∨ i ∈ script
  handed : ∃ handed, script = handed ++ left ∧ handed.Sublist l.fed
  room : (l.fed ++ l.up ++ l.client.state.left ++ left).countP pushes < 2 ^ 63

namespace Mirrors

variable {config : Config} {script left : List Input} {near : Party Console PumpEnd}
  {ups downs : List (Frame β)} {runtime : LogAdapter}
  {l : Link Client String LogNode Input Output}

theorem feed (h : Mirrors w opts config script near ups runtime left downs l) {a : LogAdapter}
    (ha : Labelled opts a l.node) {i : Input} {rest left' : List Input}
    (hup : l.up = i :: rest ∨ l.up = rest ∧ ∀ s, i.wants.request? s = none)
    (hend : ∀ s, i ≠ .endStream s)
    (hasked : i.wants.request? opts.streamId ≠ none →
      a.streamLogIds[opts.streamId]? = some opts.logId)
    (hfed : Written opts i ∨ i ∈ script)
    (hhanded : ∃ handed, script = handed ++ left' ∧ handed.Sublist (l.fed ++ [i]))
    (hroom : (l.fed ++ [i] ++ rest ++ l.client.state.left ++ left').countP pushes < 2 ^ 63) :
    Mirrors w opts config script near (rest.map (upFrame w opts)) (injectStep w a i).1 left'
      (downs ++ (injectStep w a i).2) ({ l with up := rest }.feed LogNode.handle i) := by
  have hreading := h.reading.feed hup hend
  have hnode : l.node = run config l.fed := h.reading.recorded.node
  have hpassed := LogNode.handle_passed (run_wf config l.fed) (run_tail config l.fed)
    (run_ranked config l.fed) (LogClient.wants_stays hend opts.streamId)
  rw [← hnode] at hpassed
  have hmine : ∀ r, .response r ∈ (l.node.handle i).2 → r.streamId = opts.streamId := fun r hr =>
    hreading.mine_down r (List.mem_append_right _ hr)
  obtain ⟨hframes, hlabelled⟩ := ha.inject (w := w) hpassed hmine hasked
  refine ⟨hreading, rfl, ?_, fun j hj => h.written j ?_, hlabelled, h.shows, fun j hj => ?_,
    hhanded, hroom⟩
  · rw [h.downs_eq, hframes, ← List.map_append]
    rfl
  · rcases hup with hup | ⟨hup, -⟩
    · rw [hup]
      exact List.mem_cons_of_mem i hj
    · rw [hup]
      exact hj
  · rcases List.mem_append.mp hj with hj | hj
    · exact h.fed j hj
    · rw [List.mem_singleton.mp hj]
      exact hfed

theorem serve {f : Frame β} (h : Mirrors w opts config script near (f :: ups) runtime left downs l)
    (hinverts : InvertsAll c w) : ∃ i rest, l.up = i :: rest ∧
      decodeInput c.toCborReader f = .ok i ∧
      Mirrors w opts config script near ups
        (injectStep w (runtime.decodeInput c.toCborReader f).1 i).1 left
        (downs ++ (injectStep w (runtime.decodeInput c.toCborReader f).1 i).2)
        ({ l with up := rest }.feed LogNode.handle i) := by
  obtain ⟨i, rest, hup, hf, hups⟩ := List.map_eq_cons_iff.mp h.ups_eq.symm
  subst hf hups
  have hwritten := h.written i (by simp [hup])
  have hlabel : i.wants.request? opts.streamId ≠ none →
      (runtime.decodeInput c.toCborReader (upFrame w opts i)).1.streamLogIds[opts.streamId]? =
        some opts.logId := fun hasked => hwritten.label hinverts runtime fun hnone =>
    absurd hnone hasked
  have hlabelled : Labelled opts (runtime.decodeInput c.toCborReader (upFrame w opts i)).1 l.node :=
    ⟨(LogAdapter.node_decodeInput runtime).trans h.labelled.node, fun k hk =>
      hwritten.label hinverts runtime fun _ => h.labelled.label k hk⟩
  obtain ⟨handed, hscript, hsublist⟩ := h.handed
  refine ⟨i, rest, hup, hwritten.decode hinverts, ?_⟩
  refine h.feed hlabelled (.inl hup) (h.reading.stays i (by simp [hup])) hlabel (.inl hwritten)
    ⟨handed, hscript, hsublist.trans (List.sublist_append_left _ _)⟩ ?_
  have hroom := h.room
  rw [hup, List.append_cons] at hroom
  exact hroom

theorem inject {i : Input} (h : Mirrors w opts config script near ups runtime (i :: left) downs l)
    (hi : produces i = true) : Mirrors w opts config script near ups (injectStep w runtime i).1 left
      (downs ++ (injectStep w runtime i).2) (l.feed LogNode.handle i) := by
  have hnone := LogClient.wants_produces hi
  obtain ⟨handed, hscript, hsublist⟩ := h.handed
  rw [h.ups_eq]
  refine h.feed h.labelled (.inr ⟨rfl, hnone⟩) ?_ (fun hasked => absurd (hnone _) hasked)
    (.inr (by rw [hscript]; simp)) ⟨handed ++ [i], by rw [hscript, List.append_assoc, List.singleton_append],
      hsublist.append (List.Sublist.refl _)⟩ ?_
  · rintro s rfl
    simp [produces] at hi
  · have hroom := h.room
    simp only [List.countP_append, List.countP_cons, List.countP_nil] at hroom ⊢
    omega

end Mirrors

/-- A schedule of the session leads there, in which only the script prompts the node. -/
abbrev Session (opts : ClientOpts) (config : Config) (script : List Input)
    (l : Link Client String LogNode Input Output) : Prop :=
  Link.Reaches LogNode.handle (LogClient.receive opts.toOpts) (· ∈ script)
    (Link.opening (LogClient.start opts.toOpts) (LogNode.new config)) l

theorem injectCut_eq (w : CborWriter β) (a : LogAdapter) (inputs : List Input) (room : Nat) :
    ∃ n, injectCut w a inputs room = (injectAll w a (inputs.take n)).1 := by
  induction inputs generalizing a room with
  | nil => exact ⟨0, rfl⟩
  | cons input rest ih =>
      rw [injectCut]
      by_cases hroom : room < (injectStep w a input).2.length
      · exact ⟨1, if_pos hroom⟩
      · obtain ⟨n, hn⟩ := ih (injectStep w a input).1 (room - (injectStep w a input).2.length)
        exact ⟨n + 1, (if_neg hroom).trans hn⟩

namespace Mirrors

variable {config : Config} {script left : List Input} {near : Party Console PumpEnd}
  {ups downs : List (Frame β)} {runtime : LogAdapter}
  {l : Link Client String LogNode Input Output}

theorem injectAll {due : List Input}
    (h : Mirrors w opts config script near ups runtime (due ++ left) downs l)
    (hsession : Session opts config script l) (hscript : ∀ i ∈ script, produces i = true) :
    ∃ l', Session opts config script l' ∧
      Mirrors w opts config script near ups (injectAll w runtime due).1 left
        (downs ++ (injectAll w runtime due).2) l' := by
  induction due generalizing runtime downs l with
  | nil => exact ⟨l, hsession, by simpa [LogTools.injectAll, outputs] using h⟩
  | cons i due ih =>
      obtain ⟨handed, hhanded, -⟩ := h.handed
      have hi : i ∈ script := by
        rw [hhanded]
        simp
      obtain ⟨l', hsession', hl'⟩ := ih (h.inject (hscript i hi)) (hsession.prompt hi)
      refine ⟨l', hsession', ?_⟩
      rw [List.append_assoc] at hl'
      exact hl'

theorem fire {p : NodeProcess}
    (h : Mirrors w opts config script near ups p.runtime p.left downs l)
    (hsession : Session opts config script l) (hscript : ∀ i ∈ script, produces i = true) :
    ∃ l', Session opts config script l' ∧
      Mirrors w opts config script near ups (fire w p).1.runtime (fire w p).1.left
        (downs ++ (fire w p).2) l' := by
  unfold LogTools.fire
  cases hpending : p.pending with
  | none => exact ⟨l, hsession, by simpa using h⟩
  | some pending =>
      rw [NodeProcess.left_takeDue hpending p.frames] at h
      exact h.injectAll hsession hscript

theorem nodeTurn {p : NodeProcess} {f : Frame β}
    (h : Mirrors w opts config script near (f :: ups) p.runtime p.left downs l)
    (hinverts : InvertsAll c w) (hsession : Session opts config script l)
    (hscript : ∀ i ∈ script, produces i = true) :
    ∃ p' out l', nodeTurn c w p (.frame f) = (.running p', out) ∧ Session opts config script l' ∧
      Mirrors w opts config script near ups p'.runtime p'.left (downs ++ out) l' := by
  obtain ⟨i, rest, hup, hdecode, hserved⟩ := h.serve hinverts
  let decoded : NodeProcess := { p with
    runtime := (injectStep w (p.runtime.decodeInput c.toCborReader f).1 i).1
    frames := (p.frames + 1) % 2 ^ 64 }
  have hserved : Mirrors w opts config script near ups decoded.runtime decoded.left
    (downs ++ (injectStep w (p.runtime.decodeInput c.toCborReader f).1 i).2) _ := hserved
  obtain ⟨l', hsession', hl'⟩ := hserved.fire (hsession.serve hup) hscript
  refine ⟨(LogTools.fire w decoded).1, _, l', ?_, hsession', by
    rw [List.append_assoc] at hl'; exact hl'⟩
  rw [LogTools.nodeTurn]
  simp only [process_of_ok hdecode]
  rfl

theorem nodeEnds {p : NodeProcess}
    (h : Mirrors w opts config script near ups p.runtime p.left downs l)
    (hsession : Session opts config script l) (hscript : ∀ i ∈ script, produces i = true) :
    ∃ p' out l', LogTools.nodeTurn c w p .ended = (.stopped p' (.exit 0), out) ∧
      p'.left = [] ∧ Session opts config script l' ∧
      Mirrors w opts config script near ups p'.runtime [] (downs ++ out) l' := by
  cases hpending : p.pending with
  | none =>
      have hleft : p.left = [] := by rw [NodeProcess.left, hpending]; rfl
      refine ⟨p, [], l, ?_, hleft, hsession, ?_⟩
      · simp [LogTools.nodeTurn, hpending, LogAdapter.finish, framesOf]
      · rw [hleft] at h
        simpa using h
  | some pending =>
      rw [NodeProcess.left_eq hpending] at h
      have hall : Mirrors w opts config script near ups p.runtime (pending.drainRemaining ++ [])
          downs l := by rwa [List.append_nil]
      obtain ⟨l', hsession', hl'⟩ := hall.injectAll hsession hscript
      refine ⟨{ p with runtime := (LogTools.injectAll w p.runtime pending.drainRemaining).1
                       pending := none }, _, l', ?_, rfl, hsession', hl'⟩
      simp [LogTools.nodeTurn, hpending, LogAdapter.finish, framesOf]

/-- As many inputs of the script as the node comes to before its write fails. -/
theorem injectCut {due : List Input} (room : Nat)
    (h : Mirrors w opts config script near ups runtime (due ++ left) downs l)
    (hsession : Session opts config script l) (hscript : ∀ i ∈ script, produces i = true) :
    ∃ out left' l', Session opts config script l' ∧
      Mirrors w opts config script near ups (injectCut w runtime due room) left'
        (downs ++ out) l' := by
  obtain ⟨n, hn⟩ := injectCut_eq w runtime due room
  rw [← List.take_append_drop n due, List.append_assoc] at h
  obtain ⟨l', hsession', hl'⟩ := h.injectAll hsession hscript
  rw [← hn] at hl'
  exact ⟨_, _, l', hsession', hl'⟩

theorem fireCut {p : NodeProcess} (room : Nat)
    (h : Mirrors w opts config script near ups p.runtime p.left downs l)
    (hsession : Session opts config script l) (hscript : ∀ i ∈ script, produces i = true) :
    ∃ out left' l', Session opts config script l' ∧
      Mirrors w opts config script near ups (fireCut w p room).runtime left' (downs ++ out) l' := by
  unfold LogTools.fireCut
  cases hpending : p.pending with
  | none =>
      rw [← List.append_nil downs] at h
      exact ⟨[], p.left, l, hsession, h⟩
  | some pending =>
      rw [NodeProcess.left_takeDue hpending p.frames] at h
      exact h.injectCut room hsession hscript

theorem nodeCut {p : NodeProcess} {f : Frame β} (room : Nat)
    (h : Mirrors w opts config script near (f :: ups) p.runtime p.left downs l)
    (hinverts : InvertsAll c w) (hsession : Session opts config script l)
    (hscript : ∀ i ∈ script, produces i = true) :
    ∃ p' out left' l', nodeCut c w p (.frame f) room = .stopped p' brokenPipe ∧
      Session opts config script l' ∧
      Mirrors w opts config script near ups p'.runtime left' (downs ++ out) l' := by
  obtain ⟨i, rest, hup, hdecode, hserved⟩ := h.serve hinverts
  rw [LogTools.nodeCut]
  simp only [process_of_ok hdecode]
  split
  case isTrue => exact ⟨_, _, _, _, rfl, hsession.serve hup, hserved⟩
  case isFalse =>
      let decoded : NodeProcess := { p with
        runtime := (injectStep w (p.runtime.decodeInput c.toCborReader f).1 i).1
        frames := (p.frames + 1) % 2 ^ 64 }
      have hserved : Mirrors w opts config script near ups decoded.runtime decoded.left
        (downs ++ (injectStep w (p.runtime.decodeInput c.toCborReader f).1 i).2) _ := hserved
      obtain ⟨out, left', l', hsession', hl'⟩ :=
        hserved.fireCut (room - _) (hsession.serve hup) hscript
      rw [List.append_assoc] at hl'
      exact ⟨_, _, left', l', rfl, hsession', hl'⟩

theorem nodeEndsCut {p : NodeProcess} (room : Nat)
    (h : Mirrors w opts config script near ups p.runtime p.left downs l)
    (hsession : Session opts config script l) (hscript : ∀ i ∈ script, produces i = true) :
    ∃ p' out left' l', LogTools.nodeCut c w p .ended room = .stopped p' brokenPipe ∧
      Session opts config script l' ∧
      Mirrors w opts config script near ups p'.runtime left' (downs ++ out) l' := by
  rw [LogTools.nodeCut]
  cases hpending : p.pending with
  | none =>
      rw [← List.append_nil downs] at h
      exact ⟨p, [], p.left, l, rfl, hsession, h⟩
  | some pending =>
      rw [NodeProcess.left_eq hpending, ← List.append_nil pending.drainRemaining] at h
      obtain ⟨out, left', l', hsession', hl'⟩ := h.injectCut room hsession hscript
      exact ⟨_, out, left', l', rfl, hsession', hl'⟩

end Mirrors

/-! ## What the client does -/

def Scripted (opts : ClientOpts) : Prop :=
  ∀ i ∈ scripted opts.toOpts, produces i = true ∧ ∀ n ∈ u64s i, n < 2 ^ 64

theorem clientSend_eq (w : CborWriter β) (opts : ClientOpts) (k : Client) (transcript : List Line)
    (hleft : ∀ i ∈ k.left, produces i = true) : ∃ k',
      LogClient.send opts.toOpts k = (.running k', (LogClient.send opts.toOpts k).2) ∧
      clientSend w opts ⟨k, transcript⟩ =
        (.running ⟨k', transcript⟩, (LogClient.send opts.toOpts k).2.map (upFrame w opts)) := by
  unfold LogClient.send clientSend
  cases hpending : k.pending with
  | none => exact ⟨_, rfl, by simp [upFrame, readRequest, hpending]⟩
  | some p =>
      have hdue : ∀ i ∈ (p.takeDue (k.sent + 1)).1, produces i = true := by
        intro i hi
        apply hleft
        rw [Client.left, hpending]
        show i ∈ p.drainRemaining
        rw [← p.takeDue_drain (k.sent + 1)]
        exact List.mem_append_left _ hi
      refine ⟨_, rfl, ?_⟩
      dsimp only
      rw [List.map_cons, List.map_congr_left fun i hi => upFrame_produced (hdue i hi)]
      rfl

theorem written_send (hscript : Scripted opts) {k : Client} (hcursor : k.cursor < 2 ^ 64)
    (hleft : ∀ i ∈ k.left, i ∈ scripted opts.toOpts) :
    ∀ i ∈ (LogClient.send opts.toOpts k).2, Written opts i := by
  obtain ⟨k', due, hsend, hsends⟩ := LogClient.send_spec opts.toOpts k
  rw [hsend]
  intro i hi
  rcases List.mem_cons.mp hi with rfl | hi
  · exact .read k.cursor hcursor
  · have hmem := hleft i (by rw [hsends.left]; simp [hi])
    exact .scripted i hmem (hscript i hmem).1 (hscript i hmem).2

theorem pushes_send (opts : ClientOpts) (k : Client) :
    ((LogClient.send opts.toOpts k).2 ++ (LogClient.send opts.toOpts k).1.state.left).countP pushes =
      k.left.countP pushes := by
  obtain ⟨k', due, hsend, hsends⟩ := LogClient.send_spec opts.toOpts k
  rw [hsend, hsends.left]
  rfl

theorem receive_writes (hscript : Scripted opts) {k : Client} {o : Output}
    (hnext : ∀ r, o = .response r → r.nextCursor.seq < 2 ^ 63)
    (hleft : ∀ i ∈ k.left, i ∈ scripted opts.toOpts) :
    (∀ i ∈ (LogClient.receive opts.toOpts k o).2, Written opts i) ∧
      ((LogClient.receive opts.toOpts k o).2 ++
          (LogClient.receive opts.toOpts k o).1.state.left).countP pushes =
        k.left.countP pushes := by
  cases o with
  | response r =>
      have hcursor : r.nextCursor.seq < 2 ^ 64 := (hnext r rfl).trans (by decide)
      rw [LogClient.receive]
      cases r.state with
      | data | wouldBlock | expired =>
          exact ⟨written_send (k := { k with cursor := r.nextCursor.seq }) hscript hcursor hleft,
            pushes_send opts { k with cursor := r.nextCursor.seq }⟩
      | eof | closed | failed => exact ⟨by simp, rfl⟩
  | _ => exact ⟨by simp [LogClient.receive], rfl⟩

theorem toInt_asI64 {n : Nat} (h : n < 2 ^ 63) : (max (asI64 (.ofNat n)).toInt 0).toNat = n := by
  have hback := asU64_toNat (asI64 (.ofNat n))
  rw [asU64_ofNat (by omega)] at hback
  have hlow := (asI64 (.ofNat n)).le_toInt
  have hhigh := (asI64 (.ofNat n)).toInt_lt
  omega

theorem lines_concat (opts : ClientOpts) (taken : List Output) (o : Output) :
    lines opts (taken ++ [o]) = lines opts taken ++ lines opts [o] := by
  rw [lines, lines, lines, responses_append, List.map_append]

theorem lines_other (opts : ClientOpts) (taken : List Output) {o : Output}
    (ho : ∀ r, o ≠ .response r) : lines opts (taken ++ [o]) = lines opts taken := by
  rw [lines_concat]
  cases o with
  | response r => exact absurd rfl (ho r)
  | _ => exact List.append_nil _

/-- The client does with a frame what it does with the message in it. -/
theorem clientTurn_eq (hinverts : InvertsAll c w) {k : Client} (taken : List Output) {o : Output}
    (hleft : ∀ i ∈ k.left, produces i = true)
    (hnext : ∀ r, o = .response r → r.nextCursor.seq < 2 ^ 63) :
    Shows opts (taken ++ [o])
        (clientTurn c w opts ⟨k, lines opts taken⟩ (.frame (downFrame w opts o))).1
        (LogClient.receive opts.toOpts k o).1 ∧
      (clientTurn c w opts ⟨k, lines opts taken⟩ (.frame (downFrame w opts o))).2 =
        (LogClient.receive opts.toOpts k o).2.map (upFrame w opts) := by
  have htag : ∀ (tag : LogMsgType) (body : β), encodeOutput w (labels opts) o = (tag, body) →
      LogMsgType.fromWire (downFrame w opts o).tag.toNat = some tag := by
    intro tag body hencode
    rw [downFrame, hencode]
    exact fromWire_wire tag body
  rw [clientTurn, clientReads]
  cases o with
  | response r =>
      simp only [htag _ _ rfl]
      have hbody : LogReadResponse.fromCbor c (downFrame w opts (.response r)).body =
          .ok (readResponse r (labels opts)) := hinverts.response _
      simp only [hbody]
      have hcursor : (max (readResponse r (labels opts)).nextCursor.seq.toInt 0).toNat =
          r.nextCursor.seq := toInt_asI64 (hnext r rfl)
      have hlines : lines opts taken ++ [.response (readResponse r (labels opts))] =
          lines opts (taken ++ [.response r]) := (lines_concat opts taken (.response r)).symm
      have hreads : Shows opts (taken ++ [.response r])
            (clientSend w opts ⟨{ k with cursor := r.nextCursor.seq },
              lines opts (taken ++ [.response r])⟩).1
            (LogClient.send opts.toOpts { k with cursor := r.nextCursor.seq }).1 ∧
          (clientSend w opts ⟨{ k with cursor := r.nextCursor.seq },
              lines opts (taken ++ [.response r])⟩).2 =
            (LogClient.send opts.toOpts { k with cursor := r.nextCursor.seq }).2.map
              (upFrame w opts) := by
        obtain ⟨k', hsend, hframes⟩ := clientSend_eq w opts
          { k with cursor := r.nextCursor.seq } (lines opts (taken ++ [.response r])) hleft
        rw [hframes, hsend]
        exact ⟨.running k', rfl⟩
      rw [clientResponse]
      simp only [hcursor, hlines]
      have hstate : (readResponse r (labels opts)).state = toWireState r.state := rfl
      rw [hstate, LogClient.receive]
      cases r.state with
      | data | wouldBlock | expired => exact hreads
      | eof | closed | failed => exact ⟨.stopped k _, rfl⟩
  | producerStop reason =>
      have hlines := lines_other opts taken (o := .producerStop reason) (by simp)
      simp only [htag _ _ rfl]
      rw [← hlines]
      exact ⟨.stopped k _, rfl⟩
  | setTimer token ms =>
      have hlines := lines_other opts taken (o := .setTimer token ms) (by simp)
      simp only [htag _ _ rfl]
      rw [← hlines]
      exact ⟨.running k, rfl⟩
  | cancelTimer token =>
      have hlines := lines_other opts taken (o := .cancelTimer token) (by simp)
      simp only [htag _ _ rfl]
      rw [← hlines]
      exact ⟨.running k, rfl⟩
  | diagnostic d =>
      have hlines := lines_other opts taken (o := .diagnostic d) (by simp)
      simp only [htag _ _ rfl]
      rw [← hlines]
      exact ⟨.running k, rfl⟩

/-! ## A frame that the client reads -/

theorem length_history_le (config : Config) (inputs : List Input) :
    (history config inputs).length ≤ inputs.countP pushes := by
  induction inputs using List.reverseRecOn with
  | nil => exact le_rfl
  | append_singleton front input ih =>
      rw [history_concat, List.length_append, List.countP_append]
      have hone : ((run config front).accepted input).length ≤ [input].countP pushes := by
        cases input with
        | push payload =>
            rw [LogNode.accepted]
            split <;> simp [pushes]
        | _ => exact Nat.zero_le _
      omega

namespace Mirrors

variable {config : Config} {script left : List Input} {near : Party Console PumpEnd}
  {ups downs : List (Frame β)} {runtime : LogAdapter}
  {l : Link Client String LogNode Input Output}

/-- What is on its way to the client ends within the history. -/
theorem inside (h : Mirrors w opts config script near ups runtime left downs l) {r : Response}
    (hr : .response r ∈ l.down) : r.nextCursor.seq < 2 ^ 63 := by
  have hreads := run_reads config opts.streamId opts.start l.fed h.reading.threaded
  have hanswered : r ∈ answered config l.fed opts.streamId := by
    rw [h.reading.answered, ← LogClient.responses_eq_told h.reading.mine_down]
    exact List.mem_append_right _ (List.mem_filterMap.mpr ⟨_, hr, rfl⟩)
  have hinside := hreads.reader.inside r hanswered
  have hpushes := length_history_le config l.fed
  have hroom := h.room
  simp only [List.countP_append] at hroom
  omega

theorem hear {t : Console} {f : Frame β}
    (h : Mirrors w opts config script (.running t) ups runtime left (f :: downs) l)
    (hinverts : InvertsAll c w) (hsession : Session opts config script l) (hscript : Scripted opts) :
    ∃ l', Session opts config script l' ∧
      Mirrors w opts config script (clientTurn c w opts t (.frame f)).1
        (ups ++ (clientTurn c w opts t (.frame f)).2) runtime left downs l' := by
  obtain ⟨o, rest, hdown, rfl, rfl⟩ := List.map_eq_cons_iff.mp h.downs_eq.symm
  obtain ⟨k, hclient, rfl⟩ : ∃ k, l.client = .running k ∧ t = ⟨k, lines opts l.taken⟩ := by
    have hshows := h.shows
    generalize l.client = client at hshows ⊢
    cases hshows with
    | running k => exact ⟨k, rfl, rfl⟩
  have hproduces : ∀ i ∈ scripted opts.toOpts, produces i = true := fun i hi => (hscript i hi).1
  obtain ⟨handed, hhanded, hsublist⟩ := h.reading.left
  rw [hclient] at hhanded
  have hleft : ∀ i ∈ k.left, i ∈ scripted opts.toOpts := fun i hi => by
    rw [hhanded]
    exact List.mem_append_right _ hi
  have hnext : ∀ r, o = .response r → r.nextCursor.seq < 2 ^ 63 := fun r hr =>
    h.inside (by rw [hdown, hr]; exact List.mem_cons_self)
  obtain ⟨hshows, hframes⟩ := clientTurn_eq hinverts l.taken
    (fun i hi => hproduces i (hleft i hi)) hnext
  obtain ⟨hwritten, hpushes⟩ := receive_writes hscript hnext hleft
  have hreading := h.reading.listen hproduces hclient hdown
  refine ⟨_, hsession.listen hclient hdown, hreading, ?_, rfl, ?_, h.labelled, hshows, h.fed,
    h.handed, ?_⟩
  · rw [h.ups_eq, hframes, ← List.map_append]
  · intro i hi
    rcases List.mem_append.mp hi with hi | hi
    · exact h.written i hi
    · exact hwritten i hi
  · have hroom := h.room
    rw [hclient] at hroom
    simp only [Party.state, List.countP_append] at hroom hpushes ⊢
    omega

end Mirrors

/-! ## The two processes -/

def nodeScript (nodeOpts : Tool.Opts) : List Input :=
  (nodeOpts.script.map fun s => (Pending.new s).drainRemaining).getD []

/-- The processes and the frames in the pipes are those of a session, and the node ends
after the client.  Where a write of the node has failed, the session goes on with outputs
that never came into the pipe, and what the script had left is lost. -/
def Together (w : CborWriter β) (opts : ClientOpts) (config : Config) (script : List Input)
    (near : Party Console PumpEnd) (ups : List (Frame β)) (far : Party NodeProcess PumpEnd)
    (downs : List (Frame β)) : Prop :=
  ∃ l left out, Session opts config script l ∧
    Mirrors w opts config script near ups far.state.runtime left (downs ++ out) l ∧
    (far.outcome ≠ some brokenPipe → left = far.state.left ∧ out = []) ∧
    ∀ e, far.outcome = some e → near.outcome.isSome = true ∧
      (e = brokenPipe ∨ e = .exit 0 ∧ ups = [] ∧ far.state.left = [])

section together

variable {config : Config} {script : List Input}

theorem Together.whole {near : Party Console PumpEnd} {ups downs : List (Frame β)}
    {p : NodeProcess} (h : Together w opts config script near ups (.running p) downs) :
    ∃ l, Session opts config script l ∧
      Mirrors w opts config script near ups p.runtime p.left downs l := by
  obtain ⟨l, left, out, hsession, hmirrors, hwhole, -⟩ := h
  obtain ⟨rfl, rfl⟩ := hwhole (Option.some_ne_none brokenPipe).symm
  rw [List.append_nil] at hmirrors
  exact ⟨l, hsession, hmirrors⟩

theorem together_running {near : Party Console PumpEnd} {ups downs : List (Frame β)}
    {p : NodeProcess} {l : Link Client String LogNode Input Output}
    (hsession : Session opts config script l)
    (hmirrors : Mirrors w opts config script near ups p.runtime p.left downs l) :
    Together w opts config script near ups (.running p) downs := by
  rw [← List.append_nil downs] at hmirrors
  exact ⟨l, p.left, [], hsession, hmirrors, fun _ => ⟨rfl, rfl⟩,
    fun e he => by simp [Party.outcome] at he⟩

/-- The node does not end while the client runs. -/
theorem Together.far_running {t : Console} {ups downs : List (Frame β)}
    {far : Party NodeProcess PumpEnd}
    (h : Together w opts config script (.running t) ups far downs) : ∃ p, far = .running p := by
  obtain ⟨l, left, out, -, -, -, hends⟩ := h
  cases far with
  | running p => exact ⟨p, rfl⟩
  | stopped p e => simp [Party.outcome] at hends

theorem together_broken {t : Console} {e : PumpEnd} {ups downs out : List (Frame β)}
    {p : NodeProcess} {left : List Input} {l : Link Client String LogNode Input Output}
    (hsession : Session opts config script l)
    (hmirrors : Mirrors w opts config script (.stopped t e) ups p.runtime left (downs ++ out) l) :
    Together w opts config script (.stopped t e) ups (.stopped p brokenPipe) downs :=
  ⟨l, left, out, hsession, hmirrors, fun hwhole => absurd rfl hwhole,
    fun _ he => ⟨rfl, .inl (Option.some.inj he).symm⟩⟩

theorem near_hears (codec : Codec β) (hinverts : InvertsAll c w) (hscript : Scripted opts) :
    Cable.Hears (framing codec) (clientProcess c w opts) (Together w opts config script) := by
  constructor
  case message =>
    intro t ups far m downs htogether
    obtain ⟨p, rfl⟩ := htogether.far_running
    obtain ⟨l, hsession, hmirrors⟩ := htogether.whole
    obtain ⟨l', hsession', hmirrors'⟩ := hmirrors.hear hinverts hsession hscript
    exact together_running hsession' hmirrors'
  -- while the client runs, the node is there
  case ended =>
    intro t ups p e htogether
    obtain ⟨p', hp'⟩ := htogether.far_running
    exact absurd hp' (by simp)
  case messageCut =>
    intro t ups p e m downs room htogether
    obtain ⟨p', hp'⟩ := htogether.far_running
    exact absurd hp' (by simp)
  case endedCut =>
    intro t ups p e room htogether
    obtain ⟨p', hp'⟩ := htogether.far_running
    exact absurd hp' (by simp)

theorem far_hears (codec : Codec β) (hinverts : InvertsAll c w)
    (hscript : ∀ i ∈ script, produces i = true) :
    Cable.Hears (framing codec) (nodeProcess c w)
      fun far downs near ups => Together w opts config script near ups far downs := by
  constructor
  case message =>
    intro p downs near m ups htogether
    obtain ⟨l, hsession, hmirrors⟩ := htogether.whole
    obtain ⟨p', out, l', hturn, hsession', hmirrors'⟩ :=
      hmirrors.nodeTurn (p := p) hinverts hsession hscript
    show Together w opts config script near ups (nodeTurn c w p (.frame m)).1
      (downs ++ (nodeTurn c w p (.frame m)).2)
    rw [hturn]
    exact together_running hsession' hmirrors'
  case ended =>
    intro p downs t e htogether
    obtain ⟨l, hsession, hmirrors⟩ := htogether.whole
    obtain ⟨p', out, l', hturn, hleft, hsession', hmirrors'⟩ :=
      hmirrors.nodeEnds (c := c) (p := p) hsession hscript
    show Together w opts config script (.stopped t e) [] (nodeTurn c w p .ended).1
      (downs ++ (nodeTurn c w p .ended).2)
    rw [hturn]
    rw [← List.append_nil (downs ++ out)] at hmirrors'
    refine ⟨l', [], [], hsession', hmirrors', fun _ => ⟨hleft.symm, rfl⟩, fun e' he' => ?_⟩
    exact ⟨rfl, .inr ⟨(Option.some.inj he').symm, rfl, hleft⟩⟩
  case messageCut =>
    intro p downs t e m ups room htogether _
    obtain ⟨l, hsession, hmirrors⟩ := htogether.whole
    obtain ⟨p', out, left, l', hcut, hsession', hmirrors'⟩ :=
      hmirrors.nodeCut (p := p) room hinverts hsession hscript
    show Together w opts config script (.stopped t e) ups (nodeCut c w p (.frame m) room) downs
    rw [hcut]
    exact together_broken hsession' hmirrors'
  case endedCut =>
    intro p downs t e room htogether _
    obtain ⟨l, hsession, hmirrors⟩ := htogether.whole
    obtain ⟨p', out, left, l', hcut, hsession', hmirrors'⟩ :=
      hmirrors.nodeEndsCut (c := c) (p := p) room hsession hscript
    show Together w opts config script (.stopped t e) [] (nodeCut c w p .ended room) downs
    rw [hcut]
    exact together_broken hsession' hmirrors'

theorem opening_together (w : CborWriter β) (hstart : opts.start < 2 ^ 64)
    (hscript : Scripted opts) (nodeOpts : Tool.Opts)
    (hnode : ∀ i ∈ nodeScript nodeOpts, produces i = true)
    (hroom : (scripted opts.toOpts ++ nodeScript nodeOpts).countP pushes < 2 ^ 63) :
    Together w opts ⟨nodeOpts.stopWhen⟩ (nodeScript nodeOpts) (clientStart w opts).1
      (clientStart w opts).2 (nodeStart w nodeOpts).1 (nodeStart w nodeOpts).2 := by
  let config : Config := ⟨nodeOpts.stopWhen⟩
  let k := Client.new opts.toOpts
  have hall : scripted opts.toOpts = k.left := by
    show _ = ((opts.script.map Pending.new).map Pending.drainRemaining).getD []
    rw [scripted, Option.map_map]
    rfl
  obtain ⟨k', hsend, hframes⟩ := clientSend_eq w opts k [] fun i hi => (hscript i (hall ▸ hi)).1
  have hreading := LogClient.opening_reading opts.toOpts (fun i hi => (hscript i hi).1) config
  have hpushes := pushes_send opts k
  let start : NodeProcess :=
    { runtime := .new nodeOpts.stopWhen, pending := nodeOpts.script.map Pending.new, frames := 0 }
  have hleft : start.left = nodeScript nodeOpts := by
    show ((nodeOpts.script.map Pending.new).map Pending.drainRemaining).getD [] = _
    rw [nodeScript, Option.map_map]
    rfl
  have hopening : Mirrors w opts config (nodeScript nodeOpts) (clientStart w opts).1
      (clientStart w opts).2 start.runtime start.left []
      (Link.opening (LogClient.start opts.toOpts) (LogNode.new config)) := by
    constructor
    case reading => exact hreading
    case ups_eq =>
      show (clientSend w opts ⟨k, []⟩).2 = (LogClient.send opts.toOpts k).2.map (upFrame w opts)
      rw [hframes]
    case downs_eq => rfl
    case written => exact written_send (k := k) hscript hstart fun i hi => hall ▸ hi
    case labelled =>
      refine ⟨rfl, fun kept hkept => ?_⟩
      have hnone : (LogNode.new config).desk.kept opts.streamId = some kept := hkept
      rw [LogNode.desk_new] at hnone
      simp [Desk.new] at hnone
    case shows =>
      show Shows opts [] (clientSend w opts ⟨k, []⟩).1 (LogClient.send opts.toOpts k).1
      rw [hframes, hsend]
      exact .running k'
    case fed => simp [Link.opening]
    case handed => exact ⟨[], hleft.symm, List.nil_sublist _⟩
    case room =>
      show ([] ++ (LogClient.send opts.toOpts k).2 ++
        (LogClient.send opts.toOpts k).1.state.left ++ start.left).countP pushes < 2 ^ 63
      rw [List.nil_append, List.countP_append, hpushes, hleft, ← hall, ← List.countP_append]
      exact hroom
  obtain ⟨l, hsession, hmirrors⟩ := hopening.fire ⟨[], by simp, rfl⟩ hnode
  exact together_running hsession hmirrors

theorem processes_together (codec : Codec β) (hinverts : InvertsAll c w)
    (hstart : opts.start < 2 ^ 64) (hscript : Scripted opts) {nodeOpts : Tool.Opts}
    (hnode : ∀ i ∈ nodeScript nodeOpts, produces i = true)
    (hroom : (scripted opts.toOpts ++ nodeScript nodeOpts).countP pushes < 2 ^ 63)
    {hauls : List Haul}
    (hcarried : ∀ frame ∈ (processes c w opts codec nodeOpts hauls).sent, Carried codec frame) :
    (processes c w opts codec nodeOpts hauls).Keeps (framing codec)
      (Together w opts ⟨nodeOpts.stopWhen⟩ (nodeScript nodeOpts)) :=
  Cable.run_induction (opening_together w hstart hscript nodeOpts hnode hroom)
    (near_hears codec hinverts hscript) (far_hears codec hinverts hnode)
    fun frame hframe => (hcarried frame hframe).passes

end together

/-- A client that pushes one record and seals the log behind its first read. -/
def pushThenSeal : ClientOpts where
  streamId := "s"
  start := 0
  maxRecords := none
  script := some ⟨[⟨1, [.push [7], .seal]⟩]⟩
  logId := "log-A"

/-- The bodies that this client and its node write. -/
def sealedBodies : List Body :=
  [(requestFrame Body.writer pushThenSeal 0).body, (requestFrame Body.writer pushThenSeal 1).body,
    (producerFrame Body.writer (.push [7])).body, (producerFrame Body.writer .seal).body,
    (downFrame Body.writer pushThenSeal (.response ⟨"s", [⟨1, [7]⟩], ⟨1⟩, .data, none⟩)).body,
    (downFrame Body.writer pushThenSeal (.response ⟨"s", [], ⟨1⟩, .eof, none⟩)).body]

/-- Reads that find a part of a frame, or several frames. -/
def inPieces : List Haul :=
  [.toFar 10, .far 0, .toFar 100, .far 0, .far 0, .far 0, .toNear 5, .near 0, .toNear 100, .near 0,
    .toFar 100, .far 0, .toNear 100, .near 0, .exitNear, .far 0]

/-- A node whose script still closes the log when the client has exited. -/
example : (processes Body.reader Body.writer pushThenSeal (Body.codec sealedBodies)
    ⟨.lastReader, some ⟨[⟨9, [.close none]⟩]⟩⟩ inPieces).far.party.outcome = some brokenPipe := by
  decide +kernel

/-! ## From one end to the other -/

def wireRecord (r : Record) : LogRecord where
  seq := asI64 (.ofNat r.seq)
  payload := r.payload

def printed (transcript : List Line) : List LogRecord :=
  transcript.flatMap fun
    | .response m => m.records
    | .final _ => []

theorem printed_lines (opts : ClientOpts) (taken : List Output) :
    printed (lines opts taken) = ((responses taken).flatMap Response.records).map wireRecord := by
  rw [printed, lines, List.flatMap_map, List.map_flatMap]
  rfl

theorem Shows.printed {taken : List Output} {near : Party Console PumpEnd}
    {client : Party Client String} (h : Shows opts taken near client) :
    printed near.state.transcript = ((responses taken).flatMap Response.records).map wireRecord := by
  rw [← printed_lines opts]
  cases h with
  | running k => rfl
  | stopped k state =>
      show LogTools.printed (lines opts taken ++ [.final state]) = _
      simp [LogTools.printed]

theorem Shows.waiting {taken : List Output} {near : Party Console PumpEnd}
    {client : Party Client String} (h : Shows opts taken near client)
    (hrunning : near.outcome = none) : ∃ k, client = .running k := by
  cases h with
  | running k => exact ⟨k, rfl⟩
  | stopped k state => simp [Party.outcome] at hrunning

theorem Shows.final {taken : List Output} {near : Party Console PumpEnd}
    {client : Party Client String} (h : Shows opts taken near client) {state : String}
    (hstate : .final state ∈ near.state.transcript) : ∃ k, client = .stopped k state := by
  have hnone : Line.final state ∉ lines opts taken := by
    rw [lines, List.mem_map]
    rintro ⟨r, -, hr⟩
    simp at hr
  cases h with
  | running k => exact absurd hstate hnone
  | stopped k state' =>
      rcases List.mem_append.mp hstate with hold | hlast
      · exact absurd hold hnone
      · obtain rfl := Line.final.inj (List.mem_singleton.mp hlast)
        exact ⟨k, rfl⟩

theorem push_of_mem_history {config : Config} {inputs : List Input} {payload : Bytes}
    (h : payload ∈ history config inputs) : .push payload ∈ inputs := by
  induction inputs using List.reverseRecOn with
  | nil => simp [history, historyFrom] at h
  | append_singleton front input ih =>
      rw [history_concat] at h
      rcases List.mem_append.mp h with hold | hnew
      · exact List.mem_append_left _ (ih hold)
      · apply List.mem_append_right
        cases input with
        | push p =>
            rw [LogNode.accepted] at hnew
            split at hnew
            · simpa using hnew
            · simp at hnew
        | _ => simp [LogNode.accepted] at hnew

/-- **From one end to the other.**  Where the scripts evict nothing and the client begins at
the beginning, its transcript shows the first records of the log of the node, in order and
each once, and nothing that no script pushed; all of them when it ends otherwise than by
`producer_stop`, and when it waits and nothing is in the pipes. -/
theorem crossed_pipes_deliver (codec : Codec β) (c : ResponseReader β ε) (w : CborWriter β)
    (hinverts : InvertsAll c w) (opts : ClientOpts) (hstart : opts.start = 0)
    (hscript : ∀ i ∈ scripted opts.toOpts, produces i = true ∧ ∀ n ∈ u64s i, n < 2 ^ 64)
    (nodeOpts : Tool.Opts) (hnode : ∀ i ∈ nodeScript nodeOpts, produces i = true)
    (hkept : ∀ i ∈ scripted opts.toOpts ++ nodeScript nodeOpts, ∀ n, i ≠ .evict n)
    (hroom : (scripted opts.toOpts ++ nodeScript nodeOpts).countP pushes < 2 ^ 63)
    (hauls : List Haul)
    (hcarried : ∀ frame ∈ (processes c w opts codec nodeOpts hauls).sent, Carried codec frame) :
    let cable := processes c w opts codec nodeOpts hauls
    let window := cable.far.party.state.runtime.node.window
    let transcript := cable.near.party.state.transcript
    ∃ n ≤ window.records.length,
      printed transcript = (window.records.take n).map wireRecord ∧
      (∀ r ∈ window.records, .push r.payload ∈ scripted opts.toOpts ++ nodeScript nodeOpts) ∧
      (∀ state, .final state ∈ transcript → window.lifecycle ≠ .live ∧
        (state = "producer_stop" ∨ n = window.records.length)) ∧
      (cable.near.party.outcome = none →
        cable.far.arrived ++ cable.near.written = [] → cable.near.arrived ++ cable.far.written = [] →
          window.lifecycle = .live ∧ n = window.records.length) := by
  intro cable window transcript
  obtain ⟨ups, downs, hcarries, l, left, out, -, hmirrors, hwhole, hends⟩ :=
    processes_together codec hinverts (by omega) hscript hnode hroom hcarried
  let config : Config := ⟨nodeOpts.stopWhen⟩
  have hreading : LogClient.Reading opts.toOpts config l := hmirrors.reading
  have hnodes : cable.far.party.state.runtime.node = l.node := hmirrors.labelled.node
  have hwindow : window = (run config l.fed).window := by
    show cable.far.party.state.runtime.node.window = _
    rw [hnodes, hreading.recorded.node]
    rfl
  have hfed : ∀ i ∈ l.fed, (∃ cursor, i = readRequest opts.toOpts cursor) ∨
      i ∈ scripted opts.toOpts ++ nodeScript nodeOpts := by
    intro i hi
    rcases hmirrors.fed i hi with hwritten | hscripted
    · cases hwritten with
      | read cursor => exact .inl ⟨cursor, rfl⟩
      | scripted _ hmem => exact .inr (List.mem_append_left _ hmem)
    · exact .inr (List.mem_append_right _ hscripted)
  have hfloor : (run config l.fed).floor = 0 := by
    refine run_floor_of_not_evict config fun i hi => ?_
    rcases hfed i hi with ⟨cursor, rfl⟩ | hmem
    · simp [readRequest]
    · exact hkept i hmem
  have hrecords : window.records = numbered (history config l.fed) := by
    rw [hwindow, (run_holds config l.fed).records_eq]
    show (numbered (history config l.fed)).drop ((run config l.fed).floor - 1) = _
    rw [hfloor]
    rfl
  have hlength : window.records.length = (history config l.fed).length := by
    rw [hrecords, length_numbered]
  have hreader : Reader (history config l.fed) 0 0 (responses l.taken) := by
    have hreader := hreading.reader
    have hzero : l.node.floor = 0 := by
      rw [hreading.recorded.node]
      exact hfloor
    rwa [hzero, hstart] at hreader
  refine ⟨position 0 (responses l.taken), ?_, ?_, fun r hr => ?_, fun state hstate => ?_,
    fun hrunning hup hdown => ?_⟩
  · rw [hlength]
    cases hheard : responses l.taken with
    | nil => exact Nat.zero_le _
    | cons first rest =>
        rw [← hheard]
        exact hreader.position_le (by simp [hheard])
  · rw [hrecords]
    exact hmirrors.shows.printed.trans (congrArg _ hreader.whole)
  · rw [hrecords, numbered, List.mem_mapIdx] at hr
    obtain ⟨i, hi, rfl⟩ := hr
    rcases hfed _ (push_of_mem_history (List.getElem_mem hi)) with ⟨cursor, hcursor⟩ | hmem
    · simp [readRequest] at hcursor
    · exact hmem
  · obtain ⟨k, hk⟩ := hmirrors.shows.final hstate
    rw [hlength, hwindow]
    rcases hreading.ended hk with ⟨hstop, hclosed⟩ | ⟨last, hlast, -, hlate, hend⟩
    · refine ⟨fun hlive => ?_, .inl hstop⟩
      rw [hreading.recorded.node, LogNode.isClosed] at hclosed
      have hlive : (after LogNode.handle (LogNode.new config) l.fed).window.lifecycle = .live := hlive
      simp [hlive] at hclosed
    · rw [hreading.recorded.node] at hlate
      refine ⟨hlate, .inr ?_⟩
      rw [position, hlast]
      exact hend
  · obtain ⟨k, hk⟩ := hmirrors.shows.waiting hrunning
    have hups : ups = [] := Framing.eq_nil_of_wires (fun frame hframe =>
      (hcarried frame (List.mem_append_left _ (hcarries.upSent frame hframe))).passes)
      (hcarries.up.symm.trans hup)
    have hdowns : downs = [] := Framing.eq_nil_of_wires (fun frame hframe =>
      (hcarried frame (List.mem_append_right _ (hcarries.downSent frame hframe))).passes)
      (hcarries.down.symm.trans hdown)
    -- the client runs, so no write has failed and nothing of the session is missing
    have hunbroken : cable.far.party.outcome ≠ some brokenPipe := fun hbroken => by
      have hstopped : cable.near.party.outcome.isSome = true := (hends brokenPipe hbroken).1
      rw [hrunning] at hstopped
      exact Bool.false_ne_true hstopped
    obtain ⟨-, rfl⟩ := hwhole hunbroken
    rw [← List.append_nil downs, hmirrors.downs_eq, List.map_eq_nil_iff] at hdowns
    rw [hmirrors.ups_eq, List.map_eq_nil_iff] at hups
    obtain ⟨hlive, hhead, -⟩ := hreading.idle hk hups hdowns
    rw [hlength, hwindow, ← hhead, hreading.cursor hk, hstart]
    rw [hreading.recorded.node] at hlive
    exact ⟨hlive, rfl⟩

theorem crossed_pipes_deliver_sealed :
    let cable := processes Body.reader Body.writer pushThenSeal (Body.codec sealedBodies)
      ⟨.lastReader, none⟩ inPieces
    let window := cable.far.party.state.runtime.node.window
    printed cable.near.party.state.transcript = [⟨1, [7]⟩] ∧
      .final "eof" ∈ cable.near.party.state.transcript ∧
      ∃ n ≤ window.records.length,
        printed cable.near.party.state.transcript = (window.records.take n).map wireRecord := by
  intro cable window
  obtain ⟨n, hn, hprinted, -⟩ := crossed_pipes_deliver (Body.codec sealedBodies)
    Body.reader Body.writer Body.inverts pushThenSeal rfl (by decide) ⟨.lastReader, none⟩
    (by decide) (by simp [scripted, pushThenSeal, nodeScript, Pending.new, Pending.drainRemaining])
    (by decide) inPieces (by decide +kernel)
  exact ⟨by decide +kernel, by decide +kernel, n, hn, hprinted⟩

end TautShape.LogTools
