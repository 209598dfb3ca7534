import TautShape.Tool.Script
import TautShape.Tool.FrameStream
import TautShape.Tool.Adapter
import TautShape.Tool.JsonRoundTrip
import TautShape.Log.Session
/-!
# The pump

The loop of a node: a frame in, its outputs out, and then the steps of the script that are
due.  The writers do not fail here, and what is echoed on standard error is left out.
-/

namespace TautShape.Tool

open TautShape.Lib
open TautShape.Log (Bytes Input StopWhen LogNode)

variable {β ε : Type}

structure Opts where
  stopWhen : StopWhen
  script : Option (Script Input)

/-- The locals of the pump, and the inputs that the engine was fed, which the source does not
keep. -/
structure Pumped where
  runtime : LogAdapter
  output : Bytes
  fed : List Input

/-- How the pump returns: an exit code, or an I/O error of the stream. -/
inductive PumpEnd where
  | exit (code : Nat)
  | failed (error : String)
  | outOfFuel
deriving DecidableEq

def LogAdapter.finish (_ : LogAdapter) : List (EngineEmission β) := []

section pump

variable (codec : Codec β) (c : CborReader β ε) (w : CborWriter β)

def writeEmissions (output : Bytes) (emissions : List (EngineEmission β)) : Bytes :=
  emissions.foldl (fun output e => writeFrame codec output e.effect.frame.1 e.effect.frame.2)
    output

/-- A round of `inject`. -/
def injectOne (s : Pumped) (input : Input) : Pumped :=
  let (runtime, emissions) := dispatch w s.runtime input
  { runtime, output := writeEmissions codec s.output emissions, fed := s.fed ++ [input] }

def inject (s : Pumped) (inputs : List Input) : Pumped := inputs.foldl (injectOne codec w) s

/-- The injections that are due, if there is a script. -/
def fireDue (pending : Option (Pending Input)) (frames : Nat) (s : Pumped) :
    Option (Pending Input) × Pumped :=
  match pending with
  | some p =>
      let (due, p) := p.takeDue frames
      (some p, inject codec w s due)
  | none => (none, s)

/-- The loop.  The counter of the frames has 64 bits. -/
def pumpLoop : Nat → Reader → Nat → Option (Pending Input) → Pumped → PumpEnd × Pumped
  | 0, _, _, _, s => (.outOfFuel, s)
  | fuel + 1, r, frames, pending, s =>
      match readFrame codec r with
      | (.error error, _) => (.failed error, s)
      | (.ok (.error _), _) => (.exit 3, s)
      | (.ok (.ok none), _) =>
          let s := match pending with
            | some p => inject codec w s p.drainRemaining
            | none => s
          (.exit 0, { s with output := writeEmissions codec s.output s.runtime.finish })
      | (.ok (.ok (some frame)), r) =>
          match process c w s.runtime frame with
          | (runtime, .error _) => (.exit 3, { s with runtime })
          | (runtime, .ok emissions) =>
              let s : Pumped :=
                { runtime
                  output := writeEmissions codec s.output emissions
                  fed := s.fed ++ (decodeInput c frame).toOption.toList }
              let frames := (frames + 1) % 2 ^ 64
              let (pending, s) := fireDue codec w pending frames s
              pumpLoop fuel r frames pending s

def pump (fuel : Nat) (input : Reader) (opts : Opts) : PumpEnd × Pumped :=
  let s : Pumped := { runtime := .new opts.stopWhen, output := [], fed := [] }
  let (pending, s) := fireDue codec w (opts.script.map Pending.new) 0 s
  pumpLoop codec c w fuel input 0 pending s

end pump

/-! ## What the engine is fed -/

section fed

variable {codec : Codec β} {c : CborReader β ε} {w : CborWriter β}

theorem inject_fed (s : Pumped) (inputs : List Input) :
    (inject codec w s inputs).fed = s.fed ++ inputs := by
  induction inputs generalizing s with
  | nil => exact (List.append_nil s.fed).symm
  | cons input inputs ih =>
      calc
        (inject codec w s (input :: inputs)).fed
            = (inject codec w (injectOne codec w s input) inputs).fed := rfl
        _ = s.fed ++ [input] ++ inputs := ih (injectOne codec w s input)
        _ = s.fed ++ input :: inputs := by rw [List.append_assoc, List.singleton_append]

/-- The engine is where its inputs have brought it. -/
def Tells (node : LogNode) (s : Pumped) : Prop :=
  s.runtime.node = after LogNode.handle node s.fed

variable {node : LogNode} {s : Pumped}

theorem Tells.injectOne (h : Tells node s) (input : Input) :
    Tells node (injectOne codec w s input) := by
  show (s.runtime.node.handle input).1 = after LogNode.handle node (s.fed ++ [input])
  rw [after_concat, ← h]

theorem Tells.inject (h : Tells node s) (inputs : List Input) :
    Tells node (inject codec w s inputs) := by
  induction inputs generalizing s with
  | nil => exact h
  | cons input inputs ih => exact ih (h.injectOne input)

theorem Tells.fireDue (h : Tells node s) (pending : Option (Pending Input)) (frames : Nat) :
    Tells node (fireDue codec w pending frames s).2 := by
  cases pending with
  | none => exact h
  | some p => exact h.inject _

theorem Tells.pumpLoop (h : Tells node s) (fuel : Nat) (r : Reader) (frames : Nat)
    (pending : Option (Pending Input)) :
    Tells node (pumpLoop codec c w fuel r frames pending s).2 := by
  induction fuel generalizing r frames pending s with
  | zero => exact h
  | succ fuel ih =>
      rw [pumpLoop.eq_def]
      dsimp only
      split
      case h_1 | h_2 => exact h
      case h_3 =>
          cases pending with
          | none => exact h
          | some p => exact h.inject p.drainRemaining
      case h_4 frame r' hread =>
          cases hdecode : decodeInput c frame with
          | error d =>
              rw [process_of_error hdecode]
              show (s.runtime.decodeInput c frame).1.node = _
              rw [LogAdapter.node_decodeInput, h]
          | ok input =>
              rw [process_of_ok hdecode]
              apply ih
              apply Tells.fireDue
              show ((s.runtime.decodeInput c frame).1.node.handle input).1 =
                after LogNode.handle node (s.fed ++ [input])
              rw [LogAdapter.node_decodeInput, after_concat, ← h]

/-! ## A script over a session -/

section session

/-- A frame that is decoded is fed to the engine, and then what is due. -/
theorem pumpLoop_frame {frame : Frame β} {input : Input} {r r' : Reader}
    (hread : readFrame codec r = (.frame frame, r')) (hdecode : decodeInput c frame = .ok input)
    (fuel frames : Nat) (pending : Pending Input) (s : Pumped) :
    ∃ s', s'.fed = s.fed ++ input :: (pending.takeDue ((frames + 1) % 2 ^ 64)).1 ∧
      pumpLoop codec c w (fuel + 1) r frames (some pending) s =
        pumpLoop codec c w fuel r' ((frames + 1) % 2 ^ 64)
          (some (pending.takeDue ((frames + 1) % 2 ^ 64)).2) s' := by
  refine ⟨inject codec w
    { runtime := (dispatch w (s.runtime.decodeInput c frame).1 input).1
      output := writeEmissions codec s.output
        (dispatch w (s.runtime.decodeInput c frame).1 input).2
      fed := s.fed ++ [input] } (pending.takeDue ((frames + 1) % 2 ^ 64)).1, ?_, ?_⟩
  · rw [inject_fed, List.append_assoc, List.singleton_append]
  · rw [pumpLoop.eq_def]
    dsimp only
    rw [hread]
    dsimp only
    rw [process_of_ok hdecode, hdecode]
    rfl

theorem pumpLoop_ended {r r' : Reader} (hread : readFrame codec r = (.ended, r'))
    (fuel frames : Nat) (pending : Pending Input) (s : Pumped) :
    ∃ s', s'.fed = s.fed ++ pending.drainRemaining ∧
      pumpLoop codec c w (fuel + 1) r frames (some pending) s = (.exit 0, s') := by
  refine ⟨inject codec w s pending.drainRemaining, inject_fed s pending.drainRemaining, ?_⟩
  rw [pumpLoop.eq_def]
  dsimp only
  rw [hread]
  rfl

variable {steps : List (Injection Input)}

/-- The loop behind `k` frames, when the steps due by then are injected. -/
theorem pumpLoop_fed (hlt : ∀ step ∈ steps, step.afterFrames < 2 ^ 63) {frames : List (Frame β)}
    {inputs : List Input} {r : Reader} {fuel k : Nat} {front : List Input}
    (hwell : frames.map (decodeInput c) = inputs.map .ok)
    (hread : readFrames codec (frames.length + 1) r = frames.map ReadResult.frame ++ [.ended])
    (hfuel : frames.length < fuel)
    (hfed : s.fed = front ++ itemsAt Injection.afterFrames Injection.inputs steps k) :
    ∃ s', pumpLoop codec c w fuel r (k % 2 ^ 64) (some (Pending.due steps (k + 1))) s =
        (.exit 0, s') ∧
      s'.fed = front ++ weave Injection.afterFrames Injection.inputs steps k inputs := by
  induction frames generalizing inputs r fuel k front s with
  | nil =>
      obtain ⟨fuel, rfl⟩ : ∃ n, fuel = n + 1 := ⟨fuel - 1, by omega⟩
      obtain rfl : inputs = [] := by simpa using hwell.symm
      have hended : readFrame codec r = (.ended, (readFrame codec r).2) :=
        Prod.ext (List.head_eq_of_cons_eq hread) rfl
      obtain ⟨s', hs', hrun⟩ := pumpLoop_ended hended fuel (k % 2 ^ 64)
        (Pending.due steps (k + 1)) s
      refine ⟨s', hrun, ?_⟩
      rw [hs', hfed, Pending.drainRemaining_due, List.append_assoc, ← itemsFrom_succ]
      rfl
  | cons frame frames ih =>
      obtain ⟨fuel, rfl⟩ : ∃ n, fuel = n + 1 := ⟨fuel - 1, by omega⟩
      obtain ⟨input, inputs, rfl⟩ : ∃ i is, inputs = i :: is := by
        cases inputs with
        | nil => exact absurd hwell (by simp)
        | cons i is => exact ⟨i, is, rfl⟩
      rw [List.map_cons, List.map_cons, List.cons.injEq] at hwell
      have hframe : readFrame codec r = (.frame frame, (readFrame codec r).2) :=
        Prod.ext (List.head_eq_of_cons_eq hread) rfl
      obtain ⟨s', hs', hrun⟩ := pumpLoop_frame (w := w) hframe hwell.1 fuel (k % 2 ^ 64)
        (Pending.due steps (k + 1)) s
      have hcounter : (k % 2 ^ 64 + 1) % 2 ^ 64 = (k + 1) % 2 ^ 64 := by omega
      rw [hcounter, Pending.takeDue_due hlt] at hrun hs'
      have hfront : s'.fed = front ++ itemsAt Injection.afterFrames Injection.inputs steps k ++
          [input] ++ itemsAt Injection.afterFrames Injection.inputs steps (k + 1) := by
        rw [hs', hfed, List.append_assoc _ [input], List.singleton_append]
      obtain ⟨s'', hend, hfed'⟩ := ih hwell.2 (List.tail_eq_of_cons_eq hread)
        (by simpa using hfuel) hfront
      refine ⟨s'', hrun.trans hend, ?_⟩
      rw [hfed', weave]
      simp only [List.append_assoc, List.singleton_append]

/-- A session whose frames are all decoded and that ends with the stream: the engine is fed
the inputs of the client and every input of the script once, each step behind as many frames
as it says, steps of one count in the order of the file, and the steps that are never due
at the end. -/
theorem script_injected_once (codec : Codec β) (c : CborReader β ε) (w : CborWriter β)
    (decode : Json → Except String Input) (stopWhen : StopWhen) (text : String)
    (parsed : Script Json) (script : Script Input) (hparse : Script.parse text = .ok parsed)
    (hdecode : parsed.decode decode = .ok script) (frames : List (Frame β)) (inputs : List Input)
    (hwell : frames.map (decodeInput c) = inputs.map .ok) (r : Reader)
    (hread : readFrames codec (frames.length + 1) r = frames.map ReadResult.frame ++ [.ended])
    (fuel : Nat) (hfuel : frames.length < fuel) :
    ∃ raw steps s, Script.inFileOrder text = .ok raw ∧
      List.Forall₂ (Script.DecodesTo decode) raw steps ∧
      pump codec c w fuel r { stopWhen, script := some script } = (.exit 0, s) ∧
      s.fed = weave Injection.afterFrames Injection.inputs steps 0 inputs ∧
      s.fed.Perm (inputs ++ steps.flatMap Injection.inputs) ∧
      s.runtime.node = after LogNode.handle (LogNode.new { stopWhen }) s.fed := by
  obtain ⟨raw, steps, hraw, hsteps, hsorted, hlt⟩ := Script.exists_steps hparse hdecode
  have hnew : Pending.new script = Pending.due steps 0 := by
    rw [← Pending.new_sorted, ← hsorted]
  let start : Pumped := { runtime := .new stopWhen, output := [], fed := [] }
  have hdue : fireDue codec w (some (Pending.new script)) 0 start =
      (some (Pending.due steps 1),
        inject codec w start (itemsAt Injection.afterFrames Injection.inputs steps 0)) := by
    have htake := Pending.takeDue_due hlt 0
    rw [hnew, fireDue]
    rw [Nat.zero_mod] at htake
    rw [htake]
  have hpump : pump codec c w fuel r { stopWhen, script := some script } =
      pumpLoop codec c w fuel r (0 % 2 ^ 64) (some (Pending.due steps 1))
        (inject codec w start (itemsAt Injection.afterFrames Injection.inputs steps 0)) := by
    rw [pump, Option.map_some, hdue]
    rfl
  have hstart : (inject codec w start (itemsAt Injection.afterFrames Injection.inputs steps 0)).fed =
      [] ++ itemsAt Injection.afterFrames Injection.inputs steps 0 :=
    inject_fed start (itemsAt Injection.afterFrames Injection.inputs steps 0)
  obtain ⟨s, hrun, hfed⟩ := pumpLoop_fed hlt hwell hread hfuel hstart
  have hfresh : Tells (LogNode.new { stopWhen }) start := rfl
  have htells : Tells (LogNode.new { stopWhen })
      (inject codec w start (itemsAt Injection.afterFrames Injection.inputs steps 0)) :=
    hfresh.inject _
  have hnode : Tells (LogNode.new { stopWhen }) (pumpLoop codec c w fuel r (0 % 2 ^ 64)
      (some (Pending.due steps 1))
        (inject codec w start (itemsAt Injection.afterFrames Injection.inputs steps 0))).2 :=
    htells.pumpLoop fuel r (0 % 2 ^ 64) (some (Pending.due steps 1))
  rw [hrun] at hnode
  refine ⟨raw, steps, s, hraw, hsteps, hpump.trans hrun, hfed, ?_, hnode⟩
  rw [hfed]
  exact weave_perm _ _ steps inputs

end session

end fed

/-! ### A push and a scripted seal -/

/-- CBOR of a push of no bytes and nothing else. -/
def emptyPushes : Codec Item where
  encode
    | .map [(1, .bytes [])] => [0xa1, 0x01, 0x40]
    | _ => []
  tryDecode
    | [0xa1, 0x01, 0x40] => .ok (.map [(1, .bytes [])])
    | _ => .error "not an empty push"

def sealFromJson (v : Json) : Except String Input :=
  if (v.get "type").bind Json.asStr = some "seal" then .ok .seal
  else .error "script message missing string `type`"

def sealText : String := "[\x7b\"after_frames\":\"1\",\"inputs\":[\x7b\"type\":\"seal\"\x7d]\x7d]"

def sealStep : Json := .obj [("type", .str "seal")]

def sealScript : Json := .arr [.obj [("after_frames", .str "1"), ("inputs", .arr [sealStep])]]

theorem parse_sealText :
    Script.parse sealText = .ok { injections := [{ afterFrames := 1, inputs := [sealStep] }] } := by
  have hstep : sealStep.Proper := .obj (by simp [Ascending]) (by simpa using Json.Proper.str "seal")
  have hproper : sealScript.Proper := by
    refine .arr (List.forall_mem_cons.mpr ⟨.obj (by simp [Ascending]; decide) ?_, by simp⟩)
    refine List.forall_mem_cons.mpr ⟨.str "1", List.forall_mem_cons.mpr ⟨.arr ?_, by simp⟩⟩
    exact List.forall_mem_cons.mpr ⟨hstep, by simp⟩
  have hdoc : Json.parse sealText = .ok sealScript := by
    have hwritten : sealText.toList = Json.write sealScript := by decide +kernel
    rw [Json.parse_eq_ok_iff, hwritten]
    exact Json.derives_element (Json.derives_write hproper)
  have hsteps : Script.inFileOrder sealText = .ok [{ afterFrames := 1, inputs := [sealStep] }] := by
    rw [Script.inFileOrder, hdoc]
    rfl
  rw [Script.parse, hsteps]
  show Except.ok _ = _
  simp

theorem script_injected_once_seal :
    ∃ raw steps s, Script.inFileOrder sealText = .ok raw ∧
      List.Forall₂ (Script.DecodesTo sealFromJson) raw steps ∧
      pump emptyPushes Item.reader Item.writer 2 [.chunk [4, 0, 0, 0, 0, 0xa1, 0x01, 0x40]]
          { stopWhen := .lastReader, script := some { injections := [⟨1, [.seal]⟩] } } =
        (.exit 0, s) ∧
      s.fed = weave Injection.afterFrames Injection.inputs steps 0 [.push []] ∧
      s.fed.Perm ([.push []] ++ steps.flatMap Injection.inputs) ∧
      s.runtime.node = after LogNode.handle (LogNode.new { stopWhen := .lastReader }) s.fed :=
  script_injected_once emptyPushes Item.reader Item.writer sealFromJson .lastReader sealText _ _
    parse_sealText rfl [⟨0, .map [(1, .bytes [])]⟩] [.push []] rfl _ rfl 2 (by decide)

end TautShape.Tool
