import TautShape.Stream.Protocol
import TautShape.Lib.Intake
/-!
# The log behind the ring

The pushes that a run takes are those before the first seal or close.  The ring holds the
end of the log of them after every run, whatever the readers do.
-/

namespace TautShape.Stream

open TautShape.Lib TautShape.Held
open TautShape.Log (Bytes StopWhen)

def StreamInput.payload? : StreamInput → Option Bytes
  | .push payload => some payload
  | _ => none

def StreamInput.ends : StreamInput → Bool
  | .seal => true
  | .close _ => true
  | _ => false

/-- The payloads of a run that the node takes: those pushed before it is sealed or closed. -/
def accepted (inputs : List StreamInput) : List Bytes :=
  intake StreamInput.payload? StreamInput.ends inputs

theorem accepted_concat (front : List StreamInput) (input : StreamInput) :
    accepted (front ++ [input]) = accepted front ++
      if front.any StreamInput.ends then [] else input.payload?.toList := by
  apply intake_concat
  intro i hi
  cases i <;> simp_all [StreamInput.ends, StreamInput.payload?]

namespace StreamNode

variable {n m : StreamNode} {log : List (Int × Bytes)}

def adds (n : StreamNode) (input : StreamInput) : List (Int × Bytes) :=
  if n.isSealed || n.isClosed then []
  else input.payload?.toList.map (n.head + 1, ·)

theorem adds_push (n : StreamNode) (payload : Bytes)
    (hopen : n.isSealed = false ∧ n.isClosed = false) :
    n.adds (.push payload) = [(n.head + 1, payload)] := by
  rw [adds, hopen.1, hopen.2]
  rfl

theorem adds_of_none (n : StreamNode) {input : StreamInput} (hnone : input.payload? = none) :
    n.adds input = [] := by
  rw [adds, hnone]
  split <;> rfl

theorem adds_of_terminal (n : StreamNode) (input : StreamInput)
    (hterminal : (n.isSealed || n.isClosed) = true) : n.adds input = [] := if_pos hterminal

theorem ensureReader_store (n : StreamNode) (id : String) :
    n.ensureReader id = { n with
      readers := (n.ensureReader id).readers, order := (n.ensureReader id).order } := by
  unfold ensureReader
  split <;> rfl

theorem read_store (n : StreamNode) (id : String) (request : Request) :
    (n.read id request).1 = { n with
      readers := (n.read id request).1.readers
      order := (n.read id request).1.order
      nextToken := (n.read id request).1.nextToken } := by
  have hspec := n.read_spec id request
  have hensured := n.ensureReader_store id
  generalize n.read id request = result at hspec ⊢
  cases hspec with
  | dropped r hanswer hstate stop hstop =>
      rw [removeFromMap, forget, hensured]
  | answered r reader hanswer hstate => rw [seat, insertReader, hensured]
  | timed ms hanswer htimed => rw [seat, insertReader, hensured]
  | untimed hanswer htimed => rw [seat, insertReader, hensured]

theorem endStream_store (n : StreamNode) (id : String) :
    (n.endStream id).1 = { n with
      readers := (n.endStream id).1.readers, order := (n.endStream id).1.order } := by
  have hspec := n.endStream_spec id
  generalize n.endStream id = result at hspec ⊢
  cases hspec with
  | absent hentry => rfl
  | gone stop hstop => rfl

theorem timerExpired_store (h : n.Wf) (token : Int) :
    (n.timerExpired token).1 = { n with readers := (n.timerExpired token).1.readers } := by
  have hspec := timerExpired_spec h token
  generalize n.timerExpired token = result at hspec ⊢
  cases hspec with
  | unknown hnone => rfl
  | probed id held hheld htoken reader answer hprobe hreader => rfl

structure Stored (log : List (Int × Bytes)) (n : StreamNode) (input : StreamInput)
    (m : StreamNode) : Prop where
  ring : Ring (log ++ n.adds input) m
  capacity : m.capacityRecords = n.capacityRecords
  terminal : (m.isSealed || m.isClosed) = (n.isSealed || n.isClosed || input.ends)

theorem handle_stored (h : n.Wf) (hsettled : n.desk.Settled n.policy) (hring : Ring log n)
    (input : StreamInput) : Stored log n input (n.handle input).1 := by
  have hspec := n.handle_spec input
  have hsame : ∀ {m : StreamNode}, n.adds input = [] → m.head = n.head →
      m.payloads = n.payloads → m.capacityRecords = n.capacityRecords →
      Ring (log ++ n.adds input) m := by
    intro m hadds hhead hpayloads hcapacity
    rw [hadds, List.append_nil]
    exact hring.congr hhead hpayloads hcapacity
  generalize n.handle input = result at hspec ⊢
  cases hspec with
  | refused payload hterminal =>
      exact ⟨hsame (n.adds_of_terminal _ hterminal) rfl rfl rfl, rfl, (Bool.or_false _).symm⟩
  | push payload hopen =>
      have hframe := (answerAllHeld_frame (sweeping_pushed h hsettled payload)).1
      rw [hframe]
      have hpushed : Ring (log ++ [(n.head + 1, payload)]) (n.pushed payload) :=
        hring.push payload rfl rfl rfl
      refine ⟨?_, rfl, (Bool.or_false _).symm⟩
      rw [n.adds_push payload hopen]
      exact hpushed.congr rfl rfl rfl
  | again hinput hterminal =>
      refine ⟨hsame (n.adds_of_terminal _ hterminal) rfl rfl rfl, rfl, ?_⟩
      rw [hterminal, Bool.true_or]
  | «seal» hopen =>
      have hframe :=
        (answerAllHeld_frame (sweeping_stopped h hsettled true n.isClosed n.closeError)).1
      rw [hframe]
      exact ⟨hsame (n.adds_of_none rfl) rfl rfl rfl, rfl, by simp [StreamInput.ends]⟩
  | close error stop hopen =>
      have hframe := (answerAllHeld_frame (sweeping_stopped h hsettled n.isSealed true error)).1
      show Stored log n (.close error)
        { n with isClosed := true, closeError := error : StreamNode }.answerAllHeld.1
      rw [hframe]
      exact ⟨hsame (n.adds_of_none rfl) rfl rfl rfl, rfl, by simp [StreamInput.ends]⟩
  | read id request =>
      rw [n.read_store id request]
      exact ⟨hsame (n.adds_of_none rfl) rfl rfl rfl, rfl, (Bool.or_false _).symm⟩
  | endStream id =>
      rw [n.endStream_store id]
      exact ⟨hsame (n.adds_of_none rfl) rfl rfl rfl, rfl, (Bool.or_false _).symm⟩
  | timerExpired token =>
      rw [timerExpired_store h token]
      exact ⟨hsame (n.adds_of_none rfl) rfl rfl rfl, rfl, (Bool.or_false _).symm⟩

end StreamNode

theorem run_concat (capacityRecords : Nat) (capacity_pos : 0 < capacityRecords)
    (stopWhen : StopWhen) (front : List StreamInput) (input : StreamInput) :
    run capacityRecords capacity_pos stopWhen (front ++ [input]) =
      ((run capacityRecords capacity_pos stopWhen front).handle input).1 :=
  after_concat _ _ _ _

theorem logOf_accepted_concat {front : List StreamInput} {n : StreamNode}
    (hterminal : (n.isSealed || n.isClosed) = front.any StreamInput.ends)
    (hring : Ring (logOf (accepted front)) n) (input : StreamInput) :
    logOf (accepted (front ++ [input])) = logOf (accepted front) ++ n.adds input := by
  have hhead := hring.head
  rw [logOf_length] at hhead
  rw [accepted_concat, StreamNode.adds, hterminal, hhead]
  split
  · rw [List.append_nil, List.append_nil]
  · cases hpayload : input.payload? with
    | none => simp
    | some payload =>
        rw [Option.toList_some, List.map_singleton]
        exact logOf_concat (accepted front) payload

/-- The store after a run holds the end of the log of its pushes. -/
theorem run_ring (capacityRecords : Nat) (capacity_pos : 0 < capacityRecords)
    (stopWhen : StopWhen) (inputs : List StreamInput) :
    let n := run capacityRecords capacity_pos stopWhen inputs
    Ring (logOf (accepted inputs)) n ∧ n.capacityRecords = capacityRecords ∧
      (n.isSealed || n.isClosed) = inputs.any StreamInput.ends := by
  induction inputs using List.reverseRecOn with
  | nil => exact ⟨ring_new capacityRecords capacity_pos stopWhen, rfl, rfl⟩
  | append_singleton front input ih =>
      obtain ⟨hring, hcapacity, hterminal⟩ := ih
      have hstands := run_stands capacityRecords capacity_pos stopWhen front
      have hstored := StreamNode.handle_stored hstands.inv hstands.settled hring input
      rw [run_concat, logOf_accepted_concat hterminal hring]
      refine ⟨hstored.ring, hstored.capacity.trans hcapacity, ?_⟩
      rw [hstored.terminal, hterminal, List.any_append]
      simp

end TautShape.Stream
