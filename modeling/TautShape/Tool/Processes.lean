import TautShape.Tool.Arrival
import TautShape.Tool.Pump
import TautShape.Tool.Client
/-!
# The two processes of the log tool

`node` and `client` with their pipes crossed: each reads frames from bytes that arrive in
pieces, decodes them and writes frames.  As long as each frame that is written comes back
from its bytes, the two are a session of the client with the node, in which the messages
are exchanged whole.

A process that writes when the other has exited gets an error and ends with it.  Standard
error takes every line, and what goes there besides the transcript is left out.
-/

namespace TautShape.LogTools

open TautShape.Lib TautShape.Log TautShape.Tool
open TautShape.LogClient (Client produces prompts scripted readRequest)

variable {β ε : Type} (c : ResponseReader β ε) (w : CborWriter β)

/-- What a write into a pipe fails with when nobody is left to read.  `run` makes it exit 1. -/
def brokenPipe : PumpEnd := .failed "Broken pipe (os error 32)"

/-! ## The node -/

/-- The locals of `pump`. -/
structure NodeProcess where
  runtime : LogAdapter
  pending : Option (Pending Input)
  frames : Nat

/-- What `write_emissions` writes. -/
def framesOf (emissions : List (EngineEmission β)) : List (Frame β) :=
  emissions.map fun e => ⟨e.effect.frame.1, e.effect.frame.2⟩

/-- A round of `inject`. -/
def injectStep (a : LogAdapter) (input : Input) : LogAdapter × List (Frame β) :=
  let (a, emissions) := dispatch w a input
  (a, framesOf emissions)

def injectAll (a : LogAdapter) (inputs : List Input) : LogAdapter × List (Frame β) :=
  (after (injectStep w) a inputs, (outputs (injectStep w) a inputs).flatten)

/-- The injections that are due, if there is a script. -/
def fire (p : NodeProcess) : NodeProcess × List (Frame β) :=
  match p.pending with
  | some pending =>
      let (due, pending) := pending.takeDue p.frames
      let (runtime, frames) := injectAll w p.runtime due
      ({ p with runtime, pending := some pending }, frames)
  | none => (p, [])

/-- `pump` before its loop. -/
def nodeStart (opts : Tool.Opts) : Party NodeProcess PumpEnd × List (Frame β) :=
  let (p, frames) := fire w
    { runtime := .new opts.stopWhen, pending := opts.script.map Pending.new, frames := 0 }
  (.running p, frames)

/-- The body of the loop of `pump`. -/
def nodeTurn (p : NodeProcess) : ReadResult β → Party NodeProcess PumpEnd × List (Frame β)
  | .error error => (.stopped p (.failed error), [])
  | .ok (.error _) => (.stopped p (.exit 3), [])
  | .ok (.ok none) =>
      match p.pending with
      | some pending =>
          let (runtime, frames) := injectAll w p.runtime pending.drainRemaining
          (.stopped { p with runtime, pending := none } (.exit 0),
            frames ++ framesOf runtime.finish)
      | none => (.stopped p (.exit 0), framesOf p.runtime.finish)
  | .ok (.ok (some frame)) =>
      match process c.toCborReader w p.runtime frame with
      | (runtime, .error _) => (.stopped { p with runtime } (.exit 3), [])
      | (runtime, .ok emissions) =>
          let (p, due) := fire w { p with runtime, frames := (p.frames + 1) % 2 ^ 64 }
          (.running p, framesOf emissions ++ due)

/-- The inputs that are injected before a write fails, behind as many frames as there is
room for: the engine has handled the input whose output cannot be written. -/
def injectCut (a : LogAdapter) : List Input → Nat → LogAdapter
  | [], _ => a
  | input :: rest, room =>
      let (a, frames) := injectStep w a input
      if room < frames.length then a else injectCut a rest (room - frames.length)

/-- `fire` up to a write that fails.  What was due is no longer pending. -/
def fireCut (p : NodeProcess) (room : Nat) : NodeProcess :=
  match p.pending with
  | some pending =>
      let (due, pending) := pending.takeDue p.frames
      { p with runtime := injectCut w p.runtime due room, pending := some pending }
  | none => p

/-- The body of the loop up to a write, or the flush, that fails. -/
def nodeCut (p : NodeProcess) (r : ReadResult β) (room : Nat) : Party NodeProcess PumpEnd :=
  match r with
  | .error error => .stopped p (.failed error)
  | .ok (.error _) => .stopped p (.exit 3)
  | .ok (.ok none) =>
      match p.pending with
      | some pending =>
          let runtime := injectCut w p.runtime pending.drainRemaining room
          .stopped { p with runtime, pending := none } brokenPipe
      | none => .stopped p brokenPipe
  | .ok (.ok (some frame)) =>
      match process c.toCborReader w p.runtime frame with
      | (runtime, .error _) => .stopped { p with runtime } (.exit 3)
      | (runtime, .ok emissions) =>
          if room < emissions.length then .stopped { p with runtime } brokenPipe
          else
            let p := { p with runtime, frames := (p.frames + 1) % 2 ^ 64 }
            .stopped (fireCut w p (room - emissions.length)) brokenPipe

/-! ## The client -/

structure ClientOpts extends LogClient.Opts where
  logId : String

inductive Line where
  | response (m : LogReadResponse)
  | final (state : String)
deriving DecidableEq

/-- The locals of `drive`, and the transcript. -/
structure Console where
  client : Client
  transcript : List Line

variable (opts : ClientOpts)

def requestFrame (cursor : Nat) : Frame β :=
  frameOf (.read, LogReadRequest.toCbor w {
    logId := opts.logId
    streamId := opts.streamId
    cursor := some { seq := asI64 (.ofNat cursor) }
    maxRecords := opts.maxRecords.map fun n => asI64 n.toUInt64
    maxBytes := none
    timeoutMs := none })

def producerFrame (input : Input) : Frame β := frameOf (encodeInput w input)

/-- The loop `sends` up to where it waits. -/
def clientSend (t : Console) : Party Console PumpEnd × List (Frame β) :=
  let request := requestFrame w opts t.client.cursor
  let sent := t.client.sent + 1
  match t.client.pending with
  | none => (.running { t with client := { t.client with sent } }, [request])
  | some p =>
      let (due, p) := p.takeDue sent
      (.running { t with client := { t.client with sent, pending := some p } },
        request :: due.map (producerFrame w))

def clientStart : Party Console PumpEnd × List (Frame β) :=
  clientSend w opts { client := LogClient.Client.new opts.toOpts, transcript := [] }

/-- `emit_final`, with exit 0. -/
def terminal (t : Console) (state : String) : Party Console PumpEnd × List (Frame β) :=
  (.stopped { t with transcript := t.transcript ++ [.final state] } (.exit 0), [])

section turn

variable (sends : Console → Party Console PumpEnd × List (Frame β))

def clientResponse (t : Console) (resp : LogReadResponse) :
    Party Console PumpEnd × List (Frame β) :=
  let t := { t with transcript := t.transcript ++ [.response resp] }
  -- `next_cursor.seq.max(0) as u64`
  let resumed := { t with
    client := { t.client with cursor := (max resp.nextCursor.seq.toInt 0).toNat } }
  match resp.state with
  | .data | .wouldBlock => sends resumed
  | .eof => terminal t "eof"
  | .closed => terminal t "closed"
  | .failed => terminal t "failed"
  | .expired => sends resumed

/-- What is done with the result of one `read_frame`. -/
def clientReads (t : Console) : ReadResult β → Party Console PumpEnd × List (Frame β)
  | .error error => (.stopped t (.failed error), [])
  | .ok (.error _) => (.stopped t (.exit 3), [])
  | .ok (.ok none) => terminal t "eof"
  | .ok (.ok (some frame)) =>
      match LogMsgType.fromWire frame.tag.toNat with
      | none => (.stopped t (.exit 3), [])
      | some .readResponse =>
          match LogReadResponse.fromCbor c frame.body with
          | .ok resp => clientResponse sends t resp
          | .error _ => (.stopped t (.exit 3), [])
      | some .producerStop => terminal t "producer_stop"
      | some .setTimer | some .cancelTimer | some .diagnostic => (.running t, [])
      | some _ => (.stopped t (.exit 3), [])

end turn

def clientTurn (t : Console) (r : ReadResult β) : Party Console PumpEnd × List (Frame β) :=
  clientReads c (clientSend w opts) t r

/-- The loop `sends` up to a write, or the flush, that fails: the request is the first. -/
def clientSendCut (room : Nat) (t : Console) : Party Console PumpEnd × List (Frame β) :=
  match room with
  | 0 => (.stopped t brokenPipe, [])
  | _ + 1 => (.stopped (clientSend w opts t).1.state brokenPipe, [])

def clientCut (t : Console) (r : ReadResult β) (room : Nat) : Party Console PumpEnd :=
  (clientReads c (clientSendCut w opts room) t r).1

/-! ## Both of them -/

def clientProcess : Process Console PumpEnd (Frame β) (ReadResult β) where
  turn := clientTurn c w opts
  cut := clientCut c w opts

def nodeProcess : Process NodeProcess PumpEnd (Frame β) (ReadResult β) where
  turn := nodeTurn c w
  cut := nodeCut c w

/-- The client and the node after a schedule of reads, of bytes that arrive and of exits. -/
def processes (codec : Codec β) (nodeOpts : Tool.Opts) (hauls : List Haul) :
    Cable Console PumpEnd NodeProcess PumpEnd (Frame β) UInt8 :=
  (Cable.opening (framing codec) (clientStart w opts) (nodeStart w nodeOpts)).run (framing codec)
    (clientProcess c w opts) (nodeProcess c w) hauls

/-! ## The turn of the node is the body of its loop -/

section body

variable {c w} {codec : Codec β}

theorem writeEmissions_eq (output : Bytes) (emissions : List (EngineEmission β)) :
    writeEmissions codec output emissions = output ++ (framesOf emissions).flatMap (wire codec) := by
  induction emissions generalizing output with
  | nil => exact (List.append_nil output).symm
  | cons e emissions ih =>
      have hone : writeFrame codec output e.effect.frame.1 e.effect.frame.2 =
          output ++ wire codec ⟨e.effect.frame.1, e.effect.frame.2⟩ := by
        rw [wire_eq]
        simp only [writeFrame, List.append_assoc, List.cons_append, List.nil_append]
      show writeEmissions codec (writeFrame codec output _ _) emissions = _
      rw [ih, hone, List.append_assoc]
      rfl

theorem inject_eq (s : Pumped) (inputs : List Input) :
    Tool.inject codec w s inputs =
      { runtime := (injectAll w s.runtime inputs).1
        output := s.output ++ (injectAll w s.runtime inputs).2.flatMap (wire codec)
        fed := s.fed ++ inputs } := by
  induction inputs generalizing s with
  | nil => simp [Tool.inject, injectAll, outputs]
  | cons input inputs ih =>
      show Tool.inject codec w (injectOne codec w s input) inputs = _
      rw [ih]
      simp [injectOne, injectAll, injectStep, outputs, writeEmissions_eq]

@[simp] theorem frames_fire (p : NodeProcess) : (fire w p).1.frames = p.frames := by
  unfold fire
  cases p.pending <;> rfl

variable (w codec) in
theorem fireDue_eq (p : NodeProcess) (output : Bytes) (fed : List Input) :
    ∃ fed', fireDue codec w p.pending p.frames ⟨p.runtime, output, fed⟩ =
      ((fire w p).1.pending, ⟨(fire w p).1.runtime,
        output ++ (fire w p).2.flatMap (wire codec), fed'⟩) := by
  unfold fireDue fire
  cases hpending : p.pending with
  | none => exact ⟨fed, by simp [hpending]⟩
  | some pending => exact ⟨fed ++ (pending.takeDue p.frames).1, by simp [inject_eq]⟩

def pumpOn (codec : Codec β) (c : ResponseReader β ε) (w : CborWriter β) (fuel : Nat) (r : Reader)
    (output : Bytes) (fed : List Input) : Party NodeProcess PumpEnd → PumpEnd × Pumped
  | .running p =>
      pumpLoop codec c.toCborReader w fuel r p.frames p.pending ⟨p.runtime, output, fed⟩
  | .stopped p e => (e, ⟨p.runtime, output, fed⟩)

/-- One round of the loop of the pump is one turn. -/
theorem pumpLoop_turn (fuel : Nat) (r : Reader) (p : NodeProcess) (output : Bytes)
    (fed : List Input) :
    ∃ fed', pumpLoop codec c.toCborReader w (fuel + 1) r p.frames p.pending
        ⟨p.runtime, output, fed⟩ =
      pumpOn codec c w fuel (readFrame codec r).2
        (output ++ (nodeTurn c w p (readFrame codec r).1).2.flatMap (wire codec)) fed'
        (nodeTurn c w p (readFrame codec r).1).1 := by
  rw [pumpLoop.eq_def]
  dsimp only
  generalize readFrame codec r = read
  obtain ⟨result, r'⟩ := read
  dsimp only
  cases result with
  | error error => exact ⟨fed, by simp [nodeTurn, pumpOn]⟩
  | ok result =>
      cases result with
      | error error => exact ⟨fed, by simp [nodeTurn, pumpOn]⟩
      | ok frame =>
          cases frame with
          | none =>
              cases hpending : p.pending with
              | none => exact ⟨fed, by simp [nodeTurn, hpending, pumpOn, writeEmissions_eq]⟩
              | some pending =>
                  refine ⟨fed ++ pending.drainRemaining, ?_⟩
                  simp [nodeTurn, hpending, pumpOn, writeEmissions_eq, inject_eq]
          | some frame =>
              generalize hprocess : process c.toCborReader w p.runtime frame = processed
              obtain ⟨runtime, emissions⟩ := processed
              cases emissions with
              | error d => exact ⟨fed, by simp [nodeTurn, hprocess, pumpOn]⟩
              | ok emissions =>
                  obtain ⟨fed', hfire⟩ := fireDue_eq w codec
                    { p with runtime, frames := (p.frames + 1) % 2 ^ 64 }
                    (writeEmissions codec output emissions)
                    (fed ++ (decodeInput c.toCborReader frame).toOption.toList)
                  refine ⟨fed', ?_⟩
                  dsimp only at hfire
                  simp only [hprocess, hfire]
                  simp [nodeTurn, hprocess, pumpOn, writeEmissions_eq]

end body

end TautShape.LogTools
