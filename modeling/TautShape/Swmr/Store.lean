import TautShape.Swmr.Writes
/-!
# The store and its writer

What an input can do to the store, seen apart from the readers: leave it, take a snapshot
at the head, take one delta more, or start a new epoch.  The numbering of the deltas, their
bound and the order of the positions follow, and the first writer stays the writer.
-/

namespace TautShape.Swmr

open TautShape.Lib TautShape.Held
open TautShape.Log (Bytes StopWhen)

def SwmrInput.writer : SwmrInput → Option String
  | .snapshotPush writerId _ | .deltaPush writerId _ | .reset writerId _ _ => some writerId
  | _ => none

/-- The deltas behind a snapshot: each has the number after the one that it is based on. -/
def Chained (base : Int) (deltas : List SwmrDelta) : Prop :=
  ∀ (i : Nat) (d : SwmrDelta), deltas[i]? = some d → d.seq = base + i + 1 ∧ d.baseSeq = d.seq - 1

theorem chained_nil (base : Int) : Chained base [] := by
  intro i d hd
  exact absurd hd (by simp)

theorem Chained.concat {base : Int} {deltas : List SwmrDelta} (h : Chained base deltas)
    {d : SwmrDelta} (hseq : d.seq = base + deltas.length + 1) (hbase : d.baseSeq = d.seq - 1) :
    Chained base (deltas ++ [d]) := by
  intro i e he
  by_cases hi : i < deltas.length
  · rw [List.getElem?_append_left hi] at he
    exact h i e he
  · rw [List.getElem?_append_right (by omega), List.getElem?_singleton] at he
    have hlast : i - deltas.length = 0 := by
      by_contra hne
      rw [if_neg hne] at he
      exact absurd he (by simp)
    have hi' : i = deltas.length := by omega
    rw [if_pos hlast, Option.some_inj] at he
    subst he hi'
    exact ⟨hseq, hbase⟩

namespace SwmrNode

variable {n m : SwmrNode}

structure Stored (n : SwmrNode) : Prop where
  empty : n.snapshot = none → n.deltas = []
  chained : ∀ s, n.snapshot = some s → Chained s.seq n.deltas
  bounded : ∀ limit, n.maxDeltas = some limit → n.deltas.length ≤ limit

/-- Where a reader that is caught up stands: the epoch and the head, lexicographically. -/
def position (n : SwmrNode) : Int ×ₗ Int := toLex (n.epoch, n.head)

def Accepts (n : SwmrNode) (input : SwmrInput) (writerId : String) : Prop :=
  input.writer = some writerId ∧ ∀ d, Output.diagnostic d ∉ (n.handle input).2

/-! ## One input -/

inductive StoreStep (n m : SwmrNode) : Prop
  | kept (hsnapshot : m.snapshot = n.snapshot) (hdeltas : m.deltas = n.deltas)
      (hepoch : m.epoch = n.epoch)
  | snapshot (payload : Bytes) (hsnapshot : m.snapshot = some ⟨n.head, payload⟩)
      (hdeltas : m.deltas = []) (hepoch : m.epoch = n.epoch)
  | delta (payload : Bytes) (s : SwmrSnapshot) (hs : n.snapshot = some s)
      (hroom : ∀ limit, n.maxDeltas = some limit → n.deltas.length < limit)
      (hsnapshot : m.snapshot = some s)
      (hdeltas : m.deltas = n.deltas ++ [⟨n.head + 1 - 1, n.head + 1, payload⟩])
      (hepoch : m.epoch = n.epoch)
  | wiped (hsnapshot : m.snapshot = none) (hdeltas : m.deltas = [])
      (hepoch : m.epoch = n.epoch + 1)

theorem after_resetHeld {α : Type} (f : SwmrNode → α)
    (hf : ∀ (m : SwmrNode) (readers : Streams Request), f { m with readers := readers } = f m)
    (reason : SwmrResetReason) (n : SwmrNode) (ids : List String) :
    f (after (resetHeld reason) n ids) = f n := by
  refine after_induction (resetHeld reason) (P := fun m => f m = f n) rfl ?_
  intro m id _ hm
  unfold resetHeld
  split
  · exact hm
  dsimp only
  split
  · split
    · exact (hf m _).trans hm
    · exact hm
  · exact (hf m _).trans hm

theorem handle_storeStep (n : SwmrNode) (input : SwmrInput) :
    StoreStep n (n.handle input).1 := by
  have hspec := n.handle_spec input
  generalize n.handle input = result at hspec ⊢
  cases hspec with
  | snapshotPush w payload hwrite => exact .snapshot payload rfl rfl rfl
  | deltaPush w payload hwrite s hs hroom => exact .delta payload s hs hroom hs rfl rfl
  | reset w reason detail hwrite =>
      apply StoreStep.wiped
      · exact after_resetHeld SwmrNode.snapshot (fun _ _ => rfl) _ _ _
      · exact after_resetHeld SwmrNode.deltas (fun _ _ => rfl) _ _ _
      · exact after_resetHeld SwmrNode.epoch (fun _ _ => rfl) _ _ _
  | _ => exact .kept rfl rfl rfl

theorem handle_maxDeltas (n : SwmrNode) (input : SwmrInput) :
    (n.handle input).1.maxDeltas = n.maxDeltas := by
  have hspec := n.handle_spec input
  generalize n.handle input = result at hspec ⊢
  cases hspec with
  | reset w reason detail hwrite =>
      exact after_resetHeld SwmrNode.maxDeltas (fun _ _ => rfl) _ _ _
  | _ => rfl

/-! ## What each input keeps -/

theorem head_of_snapshot {s : SwmrSnapshot} (hs : n.snapshot = some s) :
    n.head = s.seq + n.deltas.length := by
  rw [head, hs]

theorem head_congr (hsnapshot : m.snapshot = n.snapshot) (hdeltas : m.deltas = n.deltas) :
    m.head = n.head := by
  rw [head, head, hsnapshot, hdeltas]

theorem Stored.of_storeStep (h : n.Stored) (hstep : StoreStep n m)
    (hmax : m.maxDeltas = n.maxDeltas) : m.Stored := by
  cases hstep with
  | kept hsnapshot hdeltas hepoch =>
      constructor
      · rw [hsnapshot, hdeltas]
        exact h.empty
      · rw [hsnapshot, hdeltas]
        exact h.chained
      · rw [hmax, hdeltas]
        exact h.bounded
  | snapshot payload hsnapshot hdeltas hepoch =>
      constructor
      · exact fun _ => hdeltas
      · intro s _
        rw [hdeltas]
        exact chained_nil s.seq
      · intro limit _
        rw [hdeltas]
        exact Nat.zero_le limit
  | delta payload s hs hroom hsnapshot hdeltas hepoch =>
      have hhead := head_of_snapshot hs
      constructor
      · intro hnone
        rw [hsnapshot] at hnone
        exact absurd hnone (by simp)
      · intro s' hs'
        rw [hsnapshot, Option.some_inj] at hs'
        subst hs'
        rw [hdeltas]
        exact (h.chained s hs).concat (congrArg (· + 1) hhead) rfl
      · intro limit hlimit
        rw [hmax] at hlimit
        rw [hdeltas, List.length_append, List.length_singleton]
        exact hroom limit hlimit
  | wiped hsnapshot hdeltas hepoch =>
      constructor
      · exact fun _ => hdeltas
      · intro s hs
        rw [hsnapshot] at hs
        exact absurd hs (by simp)
      · intro limit _
        rw [hdeltas]
        exact Nat.zero_le limit

/-- A snapshot has the head's number, a delta the next one, and a reset the next epoch. -/
theorem position_le (hstep : StoreStep n m) : n.position ≤ m.position := by
  rw [position, position, Prod.Lex.toLex_le_toLex]
  cases hstep with
  | kept hsnapshot hdeltas hepoch =>
      exact .inr ⟨hepoch.symm, (head_congr hsnapshot hdeltas).ge⟩
  | snapshot payload hsnapshot hdeltas hepoch =>
      have hhead : m.head = n.head := by
        rw [head_of_snapshot hsnapshot, hdeltas]
        simp
      exact .inr ⟨hepoch.symm, hhead.ge⟩
  | delta payload s hs hroom hsnapshot hdeltas hepoch =>
      have hhead : n.head ≤ m.head := by
        rw [head_of_snapshot hs, head_of_snapshot hsnapshot, hdeltas, List.length_append]
        omega
      exact .inr ⟨hepoch.symm, hhead⟩
  | wiped hsnapshot hdeltas hepoch =>
      have hlt : n.epoch < m.epoch := by omega
      exact .inl hlt

/-! ## The writer -/

theorem handle_writerId {w : String} (hbound : n.writerId = some w) (input : SwmrInput) :
    (n.handle input).1.writerId = some w := by
  have hspec := n.handle_spec input
  have hsame : ∀ {v}, n.MayWrite v → some v = some w := by
    intro v hwrite
    rcases hwrite.2 with hnone | hsome
    · rw [hbound] at hnone
      exact absurd hnone (by simp)
    · exact hsome.symm.trans hbound
  generalize n.handle input = result at hspec ⊢
  cases hspec with
  | refused writerId code hask hwriter =>
      rcases hwriter with rfl | ⟨-, hnone, -⟩
      · exact hbound
      · rw [hbound] at hnone
        exact absurd hnone (by simp)
  | snapshotPush v payload hwrite => exact hsame hwrite
  | deltaPush v payload hwrite s hs hroom => exact hsame hwrite
  | reset v reason detail hwrite =>
      exact (after_resetHeld SwmrNode.writerId (fun _ _ => rfl) _ _ _).trans (hsame hwrite)
  | _ => exact hbound

theorem Accepts.writerId {input : SwmrInput} {w : String} (h : n.Accepts input w) :
    (n.handle input).1.writerId = some w := by
  have hspec := n.handle_spec input
  obtain ⟨hwriter, hquiet⟩ := h
  generalize n.handle input = result at hspec hquiet ⊢
  cases hspec with
  | refused writerId code hask _ =>
      exact absurd (List.mem_singleton_self _) (hquiet _)
  | snapshotPush v payload hwrite => exact hwriter
  | deltaPush v payload hwrite s hs hroom => exact hwriter
  | reset v reason detail hwrite =>
      exact (after_resetHeld SwmrNode.writerId (fun _ _ => rfl) _ _ _).trans hwriter
  | again hinput hterminal =>
      rcases hinput with rfl | ⟨error, rfl⟩
      · exact absurd hwriter (by simp [SwmrInput.writer])
      · exact absurd hwriter (by simp [SwmrInput.writer])
  | _ => exact absurd hwriter (by simp [SwmrInput.writer])

end SwmrNode

/-! ## Whole runs -/

theorem run_append (stopWhen : StopWhen) (maxDeltas : Option Nat)
    (front back : List SwmrInput) :
    run stopWhen maxDeltas (front ++ back) =
      after SwmrNode.handle (run stopWhen maxDeltas front) back :=
  after_append SwmrNode.handle _ front back

theorem run_maxDeltas (stopWhen : StopWhen) (maxDeltas : Option Nat) (inputs : List SwmrInput) :
    (run stopWhen maxDeltas inputs).maxDeltas = maxDeltas := by
  refine after_induction SwmrNode.handle (P := fun n => n.maxDeltas = maxDeltas) rfl ?_
  intro n input _ h
  exact (n.handle_maxDeltas input).trans h

theorem run_stored (stopWhen : StopWhen) (maxDeltas : Option Nat) (inputs : List SwmrInput) :
    (run stopWhen maxDeltas inputs).Stored := by
  refine after_induction SwmrNode.handle (P := SwmrNode.Stored) ?_ ?_
  · exact ⟨fun _ => rfl, fun s hs => absurd hs (by simp [SwmrNode.new]),
      fun limit _ => Nat.zero_le limit⟩
  · intro n input _ h
    exact h.of_storeStep (n.handle_storeStep input) (n.handle_maxDeltas input)

theorem run_position_le (stopWhen : StopWhen) (maxDeltas : Option Nat)
    (front back : List SwmrInput) :
    (run stopWhen maxDeltas front).position ≤
      (run stopWhen maxDeltas (front ++ back)).position := by
  rw [run_append]
  refine after_induction SwmrNode.handle
    (P := fun n => (run stopWhen maxDeltas front).position ≤ n.position) ?_ ?_
  · exact le_refl _
  · intro n input _ h
    exact h.trans (SwmrNode.position_le (n.handle_storeStep input))

theorem run_writerId {stopWhen : StopWhen} {maxDeltas : Option Nat} {front : List SwmrInput}
    {input : SwmrInput} {w : String} (h : (run stopWhen maxDeltas front).Accepts input w)
    (back : List SwmrInput) :
    (run stopWhen maxDeltas (front ++ [input] ++ back)).writerId = some w := by
  rw [run_append, run_append]
  refine after_induction SwmrNode.handle (P := fun n => n.writerId = some w) ?_ ?_
  · exact h.writerId
  · intro n i _ hn
    exact SwmrNode.handle_writerId hn i

end TautShape.Swmr
