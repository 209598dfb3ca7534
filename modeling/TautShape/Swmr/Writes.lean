import TautShape.Swmr.Protocol
/-!
# Refused writes

A refused write leaves the node as it was, unless it is a delta that no writer came
before: that one is refused for want of a snapshot, but its writer is the writer from
then on.
-/

namespace TautShape.Swmr

open TautShape.Lib TautShape.Held
open TautShape.Log (Bytes StopWhen)

def SwmrInput.isWrite : SwmrInput → Bool
  | .snapshotPush _ _ | .deltaPush _ _ | .reset _ _ _ => true
  | _ => false

namespace SwmrNode

/-- The input is a write that is answered by a diagnostic. -/
def Refuses (n : SwmrNode) (input : SwmrInput) : Prop :=
  input.isWrite = true ∧ ∃ d, (n.handle input).2 = [.diagnostic d]

/-- A refused write might as well not have come. -/
def Atomic (n : SwmrNode) (input : SwmrInput) : Prop :=
  n.Refuses input → (n.handle input).1 = n ∧
    ∀ later, outputs handle (n.handle input).1 later = outputs handle n later

/-- A delta for a live node to which nobody has written. -/
def StrayDelta (n : SwmrNode) (input : SwmrInput) : Prop :=
  n.terminal = false ∧ n.writerId = none ∧ ∃ w payload, input = .deltaPush w payload

variable {n : SwmrNode}

def Attributed (n : SwmrNode) : Prop := n.writerId = none → n.snapshot = none

theorem handle_attributed (h : n.Attributed) (hsettled : n.readers.desk.Settled n.policy)
    (input : SwmrInput) : (n.handle input).1.Attributed := by
  have hspec := n.handle_spec input
  generalize n.handle input = result at hspec ⊢
  cases hspec with
  | refused writerId code hask hwriter =>
      intro hnone
      change writerId = none at hnone
      rcases hwriter with rfl | ⟨-, hunbound, -⟩
      · exact h hnone
      · exact h hunbound
  | snapshotPush w payload hwrite =>
      intro hnone
      simp [answerAllHeld] at hnone
  | deltaPush w payload hwrite snapshot hsnapshot hroom =>
      intro hnone
      simp [answerAllHeld] at hnone
  | reset w reason detail hwrite =>
      rw [reset_sweep hsettled]
      intro hnone
      simp [answerAllHeld, wiped] at hnone
  | _ => exact h

theorem sweep_not_diagnostic (m : SwmrNode) (d : SwmrDiagnostic) :
    m.answerAllHeld.2 ≠ [.diagnostic d] := by
  intro hout
  have habout := Streams.answerAllHeld_aboutRead m.readers m.answer
    (δ := SwmrDiagnostic) (.diagnostic d) (by
      show _ ∈ m.answerAllHeld.2
      rw [hout]
      exact List.mem_singleton_self _)
  simp [Output.aboutRead] at habout

/-- A refused input changes at most who the writer is. -/
theorem refused_handle (hsettled : n.readers.desk.Settled n.policy) {input : SwmrInput}
    (hrefuses : n.Refuses input) (hstray : ¬ n.StrayDelta input) : (n.handle input).1 = n := by
  have hspec := n.handle_spec input
  obtain ⟨hwrite, d, hout⟩ := hrefuses
  generalize n.handle input = result at hspec hout ⊢
  cases hspec with
  | refused writerId code hask hwriter =>
      rcases hwriter with rfl | ⟨hlive, hunbound, w, payload, rfl, -⟩
      · rfl
      · exact absurd ⟨hlive, hunbound, w, payload, rfl⟩ hstray
  | again hinput hterminal => rfl
  | snapshotPush w payload _ => exact absurd hout (sweep_not_diagnostic _ d)
  | deltaPush w payload _ snapshot hsnapshot hroom => exact absurd hout (sweep_not_diagnostic _ d)
  | reset w reason detail _ =>
      rw [reset_sweep hsettled] at hout
      exact absurd hout (sweep_not_diagnostic _ d)
  | _ => simp [SwmrInput.isWrite] at hwrite

theorem strayDelta_handle (h : n.Attributed) {w : String} {payload : Bytes}
    (hstray : n.StrayDelta (.deltaPush w payload)) :
    n.handle (.deltaPush w payload) =
      ({ n with writerId := some w }, diagnostic .deltaBeforeSnapshot) := by
  obtain ⟨hlive, hunbound, -⟩ := hstray
  rw [handle, deltaPush, if_neg (by simp [hlive]), checkWriter_of_mayWrite ⟨hlive, .inl hunbound⟩]
  simp [h hunbound]

/-- A refused write is atomic exactly if it is not a stray delta. -/
theorem atomic_iff (h : n.Attributed) (hsettled : n.readers.desk.Settled n.policy)
    (input : SwmrInput) : n.Atomic input ↔ ¬ n.StrayDelta input := by
  constructor
  · intro hatomic hstray
    obtain ⟨hlive, hunbound, w, payload, rfl⟩ := hstray
    have hhandle := strayDelta_handle h ⟨hlive, hunbound, w, payload, rfl⟩
    have hsame := (hatomic ⟨rfl, _, congrArg Prod.snd hhandle⟩).1
    have hwriter : some w = n.writerId := by
      rw [← congrArg writerId hsame, hhandle]
    rw [hunbound] at hwriter
    simp at hwriter
  · intro hstray hrefuses
    have hsame := refused_handle hsettled hrefuses hstray
    exact ⟨hsame, fun later => by rw [hsame]⟩

end SwmrNode

/-! ## Whole runs -/

theorem run_attributed (stopWhen : StopWhen) (maxDeltas : Option Nat) (inputs : List SwmrInput) :
    (run stopWhen maxDeltas inputs).Attributed := by
  induction inputs using List.reverseRecOn with
  | nil => exact fun _ => rfl
  | append_singleton front input ih =>
      rw [run_concat]
      exact SwmrNode.handle_attributed ih (run_stands stopWhen maxDeltas front).settled input

/-- **Refused writes.**  In a run every refused write leaves the node as if it had not come
if and only if none of its inputs is a delta for a live node to which nobody has written. -/
theorem refused_writes_atomic_iff (stopWhen : StopWhen) (maxDeltas : Option Nat)
    (inputs : List SwmrInput) :
    (∀ front input, front ++ [input] <+: inputs →
        (run stopWhen maxDeltas front).Atomic input) ↔
      ∀ front input, front ++ [input] <+: inputs →
        ¬ (run stopWhen maxDeltas front).StrayDelta input := by
  have hone : ∀ front input, (run stopWhen maxDeltas front).Atomic input ↔
      ¬ (run stopWhen maxDeltas front).StrayDelta input :=
    fun front input => SwmrNode.atomic_iff (run_attributed stopWhen maxDeltas front)
      (run_stands stopWhen maxDeltas front).settled input
  simp only [hone]

/-- The first input of a node is a delta of writer B: it is refused, and from then on writer
A is turned away, who would have been heard. -/
theorem stray_delta_binds_writer :
    let n := run .lastReader none []
    (n.handle (.deltaPush "B" [])).2 = diagnostic .deltaBeforeSnapshot ∧
      ((n.handle (.deltaPush "B" [])).1.handle (.snapshotPush "A" [])).2 =
        diagnostic .writerConflict ∧
      (n.handle (.snapshotPush "A" [])).2 = [] ∧ ¬ n.Atomic (.deltaPush "B" []) := by
  refine ⟨rfl, rfl, rfl, fun hatomic => ?_⟩
  have hwriter := congrArg SwmrNode.writerId (hatomic ⟨rfl, _, rfl⟩).1
  exact absurd hwriter (by decide)

end TautShape.Swmr
