import TautShape.Swmr.Protocol
import TautShape.Lib.Numbered
/-!
# What was published

The writes that a run accepted, each with the epoch it fell in and the number it got.
The store is a window on that history: its deltas are those of the current epoch from
the snapshot on.
-/

namespace TautShape.Swmr

open TautShape.Lib TautShape.Held
open TautShape.Log (Bytes StopWhen)

inductive Published where
  | snapshot (epoch seq : Int) (payload : Bytes)
  | delta (epoch seq : Int) (payload : Bytes)
deriving DecidableEq, Repr

def Published.epoch : Published → Int
  | .snapshot epoch _ _ | .delta epoch _ _ => epoch

def deltasOf (published : List Published) (epoch : Int) : List (Int × Bytes) :=
  published.filterMap fun
    | .delta e seq payload => if e = epoch then some (seq, payload) else none
    | .snapshot _ _ _ => none

def SwmrDelta.item (d : SwmrDelta) : Int × Bytes := (d.seq, d.payload)

/-- A write is accepted if no diagnostic answers it; its number is the head that it leaves. -/
def publishedBy (input : SwmrInput) (result : SwmrNode × List SwmrOutput) : Option Published :=
  if result.2.any Output.isDiagnostic then none
  else
    match input with
    | .snapshotPush _ payload => some (.snapshot result.1.epoch result.1.head payload)
    | .deltaPush _ payload => some (.delta result.1.epoch result.1.head payload)
    | _ => none

def publishedFrom : SwmrNode → List SwmrInput → List Published
  | _, [] => []
  | n, input :: rest =>
      (publishedBy input (n.handle input)).toList ++ publishedFrom (n.handle input).1 rest

def published (stopWhen : StopWhen) (maxDeltas : Option Nat) (inputs : List SwmrInput) :
    List Published :=
  publishedFrom (SwmrNode.new stopWhen maxDeltas) inputs

theorem published_concat (stopWhen : StopWhen) (maxDeltas : Option Nat)
    (front : List SwmrInput) (input : SwmrInput) :
    published stopWhen maxDeltas (front ++ [input]) = published stopWhen maxDeltas front ++
      (publishedBy input ((run stopWhen maxDeltas front).handle input)).toList := by
  have hfrom : ∀ n : SwmrNode, publishedFrom n (front ++ [input]) = publishedFrom n front ++
      (publishedBy input ((after SwmrNode.handle n front).handle input)).toList := by
    induction front with
    | nil => simp [publishedFrom]
    | cons first rest ih => simp [publishedFrom, ih, List.append_assoc]
  exact hfrom _

theorem deltasOf_append (front back : List Published) (epoch : Int) :
    deltasOf (front ++ back) epoch = deltasOf front epoch ++ deltasOf back epoch :=
  List.filterMap_append ..

theorem deltasOf_eq_nil {published : List Published} {epoch : Int}
    (h : ∀ p ∈ published, p.epoch ≠ epoch) : deltasOf published epoch = [] := by
  rw [deltasOf, List.filterMap_eq_nil_iff]
  intro p hp
  have hne := h p hp
  cases p with
  | snapshot e seq payload => rfl
  | delta e seq payload => exact if_neg hne

/-- The store as a window on what was published. -/
structure Recorded (published : List Published) (n : SwmrNode) : Prop where
  past : ∀ p ∈ published, p.epoch ≤ n.epoch
  numbered : ∀ epoch, Numbered Prod.fst (deltasOf published epoch)
  empty : n.snapshot = none → n.deltas = [] ∧ ∀ p ∈ published, p.epoch < n.epoch
  stored : ∀ s, n.snapshot = some s → .snapshot n.epoch s.seq s.payload ∈ published ∧
    0 ≤ s.seq ∧ s.seq ≤ (deltasOf published n.epoch).length ∧
    n.deltas.map SwmrDelta.item = (deltasOf published n.epoch).drop s.seq.toNat

namespace Recorded

variable {published : List Published} {n : SwmrNode}

theorem head_eq (h : Recorded published n) : n.head = (deltasOf published n.epoch).length := by
  rw [SwmrNode.head]
  cases hsnapshot : n.snapshot with
  | none =>
      have hold := (h.empty hsnapshot).2
      rw [deltasOf_eq_nil fun p hp => (hold p hp).ne]
      rfl
  | some s =>
      obtain ⟨-, hpos, hle, hdeltas⟩ := h.stored s hsnapshot
      have hlength := congrArg List.length hdeltas
      rw [List.length_map, List.length_drop] at hlength
      simp only
      omega

theorem new (stopWhen : StopWhen) (maxDeltas : Option Nat) :
    Recorded [] (SwmrNode.new stopWhen maxDeltas) := by
  refine ⟨by simp, fun _ => numbered_nil, fun _ => ⟨rfl, by simp⟩, fun s hs => ?_⟩
  simp [SwmrNode.new] at hs

/-- A store that differs in neither of the four fields that count. -/
theorem congr (h : Recorded published n) {m : SwmrNode} (hepoch : m.epoch = n.epoch)
    (hsnapshot : m.snapshot = n.snapshot) (hdeltas : m.deltas = n.deltas) :
    Recorded published m := by
  refine ⟨?_, h.numbered, ?_, ?_⟩
  · rw [hepoch]
    exact h.past
  · rw [hsnapshot, hdeltas, hepoch]
    exact h.empty
  · rw [hsnapshot, hdeltas, hepoch]
    exact h.stored

theorem past_concat (h : Recorded published n) {last : Published} (hlast : last.epoch = n.epoch) :
    ∀ p ∈ published ++ [last], p.epoch ≤ n.epoch := by
  intro p hp
  rcases List.mem_append.mp hp with hp | hp
  · exact h.past p hp
  · rw [List.mem_singleton.mp hp]
    exact hlast.le

theorem snapshotPush (h : Recorded published n) (payload : Bytes) {m : SwmrNode}
    (hepoch : m.epoch = n.epoch) (hsnapshot : m.snapshot = some ⟨n.head, payload⟩)
    (hdeltas : m.deltas = []) :
    Recorded (published ++ [.snapshot n.epoch n.head payload]) m := by
  have hhead := h.head_eq
  have hsame : ∀ epoch, deltasOf (published ++ [.snapshot n.epoch n.head payload]) epoch =
      deltasOf published epoch := by
    intro epoch
    rw [deltasOf_append]
    exact List.append_nil _
  refine ⟨?_, ?_, ?_, ?_⟩
  · rw [hepoch]
    exact h.past_concat rfl
  · intro epoch
    rw [hsame]
    exact h.numbered epoch
  · intro hnone
    rw [hsnapshot] at hnone
    simp at hnone
  · intro s hs
    rw [hsnapshot] at hs
    obtain rfl := Option.some.inj hs
    rw [hepoch, hsame, hdeltas, hhead]
    refine ⟨List.mem_append_right _ (List.mem_singleton_self _), Int.natCast_nonneg _,
      le_refl _, ?_⟩
    rw [Int.toNat_natCast, List.drop_length]
    rfl

theorem deltaPush (h : Recorded published n) (payload : Bytes) {s : SwmrSnapshot}
    (hs : n.snapshot = some s) {m : SwmrNode} (hepoch : m.epoch = n.epoch)
    (hsnapshot : m.snapshot = some s) {baseSeq : Int}
    (hdeltas : m.deltas = n.deltas ++ [⟨baseSeq, n.head + 1, payload⟩]) :
    Recorded (published ++ [.delta n.epoch (n.head + 1) payload]) m := by
  have hhead := h.head_eq
  have hnext : ∀ epoch, deltasOf (published ++ [.delta n.epoch (n.head + 1) payload]) epoch =
      deltasOf published epoch ++ if n.epoch = epoch then [(n.head + 1, payload)] else [] := by
    intro epoch
    rw [deltasOf_append]
    congr 1
    by_cases heq : n.epoch = epoch <;> simp [deltasOf, heq]
  refine ⟨?_, ?_, ?_, ?_⟩
  · rw [hepoch]
    exact h.past_concat rfl
  · intro epoch
    rw [hnext]
    split
    · rename_i heq
      refine (h.numbered epoch).concat ?_
      rw [← heq]
      exact congrArg (· + 1) hhead
    · rw [List.append_nil]
      exact h.numbered epoch
  · intro hnone
    rw [hsnapshot] at hnone
    simp at hnone
  · intro s' hs'
    rw [hsnapshot] at hs'
    obtain rfl := Option.some.inj hs'
    obtain ⟨hmem, hpos, hle, hold⟩ := h.stored s hs
    rw [hepoch, hnext, if_pos rfl, hdeltas, List.map_append, hold,
      List.drop_append_of_le_length (by omega)]
    refine ⟨List.mem_append_left _ hmem, hpos, ?_, rfl⟩
    rw [List.length_append]
    omega

theorem wiped (h : Recorded published n) {m : SwmrNode} (hepoch : m.epoch = n.epoch + 1)
    (hsnapshot : m.snapshot = none) (hdeltas : m.deltas = []) : Recorded published m := by
  have hpast : ∀ p ∈ published, p.epoch < m.epoch := by
    intro p hp
    have hle := h.past p hp
    omega
  refine ⟨fun p hp => (hpast p hp).le, h.numbered, fun _ => ⟨hdeltas, hpast⟩, fun s hs => ?_⟩
  rw [hsnapshot] at hs
  simp at hs

end Recorded

/-! ## Runs -/

theorem publishedBy_sweep (input : SwmrInput) (m : SwmrNode) :
    publishedBy input m.answerAllHeld =
      match input with
      | .snapshotPush _ payload => some (.snapshot m.epoch m.head payload)
      | .deltaPush _ payload => some (.delta m.epoch m.head payload)
      | _ => none := by
  have hnone : m.answerAllHeld.2.any Output.isDiagnostic = false :=
    not_diagnostic_of_aboutRead (Streams.answerAllHeld_aboutRead m.readers m.answer)
  unfold publishedBy
  rw [hnone]
  cases input <;> rfl

theorem publishedBy_other {input : SwmrInput} (result : SwmrNode × List SwmrOutput)
    (hsnapshot : ∀ w payload, input ≠ .snapshotPush w payload)
    (hdelta : ∀ w payload, input ≠ .deltaPush w payload) : publishedBy input result = none := by
  unfold publishedBy
  split
  · rfl
  · cases input with
    | snapshotPush w payload => exact absurd rfl (hsnapshot w payload)
    | deltaPush w payload => exact absurd rfl (hdelta w payload)
    | _ => rfl

theorem Recorded.handle {published : List Published} {n : SwmrNode} (h : Recorded published n)
    (hsettled : n.readers.desk.Settled n.policy) (input : SwmrInput) :
    Recorded (published ++ (publishedBy input (n.handle input)).toList) (n.handle input).1 := by
  have hspec := n.handle_spec input
  have hsame : ∀ {result : SwmrNode × List SwmrOutput}, publishedBy input result = none →
      result.1.epoch = n.epoch → result.1.snapshot = n.snapshot → result.1.deltas = n.deltas →
      Recorded (published ++ (publishedBy input result).toList) result.1 := by
    intro result hnone hepoch hsnapshot hdeltas
    rw [hnone, Option.toList_none, List.append_nil]
    exact h.congr hepoch hsnapshot hdeltas
  generalize n.handle input = result at hspec ⊢
  cases hspec with
  | refused writerId code hask hwriter => exact hsame rfl rfl rfl rfl
  | snapshotPush w payload hwrite =>
      rw [publishedBy_sweep]
      have hhead : ({ n with writerId := some w, snapshot := some ⟨n.head, payload⟩, deltas := []
          : SwmrNode }).head = n.head := by
        simp [SwmrNode.head]
      simp only [hhead]
      exact h.snapshotPush payload rfl rfl rfl
  | deltaPush w payload hwrite snapshot hsnapshot hroom =>
      rw [publishedBy_sweep]
      have hhead : ({ n with
          writerId := some w
          deltas := n.deltas ++ [⟨n.head + 1 - 1, n.head + 1, payload⟩] : SwmrNode }).head =
          n.head + 1 := by
        simp [SwmrNode.head, hsnapshot]
        omega
      simp only [hhead]
      exact h.deltaPush payload hsnapshot rfl hsnapshot rfl
  | reset w reason detail hwrite =>
      rw [SwmrNode.reset_sweep hsettled, publishedBy_sweep, Option.toList_none, List.append_nil]
      exact h.wiped rfl rfl rfl
  | again hinput hterminal =>
      refine hsame (publishedBy_other _ ?_ ?_) rfl rfl rfl
      · rcases hinput with rfl | ⟨error, rfl⟩ <;> simp
      · rcases hinput with rfl | ⟨error, rfl⟩ <;> simp
  | «seal» hopen => exact hsame (publishedBy_sweep _ _) rfl rfl rfl
  | close error hopen => exact hsame (publishedBy_other _ (by simp) (by simp)) rfl rfl rfl
  | read streamId request => exact hsame (publishedBy_other _ (by simp) (by simp)) rfl rfl rfl
  | endStream streamId => exact hsame (publishedBy_other _ (by simp) (by simp)) rfl rfl rfl
  | timerExpired token => exact hsame (publishedBy_other _ (by simp) (by simp)) rfl rfl rfl

theorem run_recorded (stopWhen : StopWhen) (maxDeltas : Option Nat) (inputs : List SwmrInput) :
    Recorded (published stopWhen maxDeltas inputs) (run stopWhen maxDeltas inputs) := by
  induction inputs using List.reverseRecOn with
  | nil => exact Recorded.new stopWhen maxDeltas
  | append_singleton front input ih =>
      rw [published_concat, run_concat]
      exact ih.handle (run_stands stopWhen maxDeltas front).settled input

end TautShape.Swmr
