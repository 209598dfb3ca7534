import TautShape.Value.Agreement
/-!
# The winner over a run

Reads and writes in any order.  What a read returns is decided by the writes that were
the first of their key; later writes of a known key are ignored, with or without a
report, so the winner can only be overtaken by a greater write.
-/

namespace TautShape.Value

open TautShape.Lib
open TautShape.Crdt (OpKey)

def run (inputs : List ValueInput) : ValueNode := after ValueNode.handle ValueNode.new inputs

def delivered (inputs : List ValueInput) : List ValueSet :=
  inputs.filterMap fun
    | .set op => some op
    | .read _ => none

/-- A write that came before every other one of its key. -/
def FirstDelivered (ops : List ValueSet) (op : ValueSet) : Prop :=
  ∃ front back, ops = front ++ op :: back ∧ ∀ a ∈ front, key a ≠ key op

/-- The order of winners: lamport, then origin, then sequence number. -/
def stampOrder (left right : ValueStamp) : Ordering :=
  (compare left.lamport right.lamport).then
    ((compare left.origin right.origin).then (compare left.seq right.seq))

def stamp (op : ValueSet) : ValueStamp := ⟨op.origin, op.seq, op.lamport⟩

def returnedStamps (inputs : List ValueInput) : List ValueStamp :=
  (outputs ValueNode.handle ValueNode.new inputs).flatten.filterMap fun
    | .readResponse response => response.winner
    | .diagnostic _ => none

theorem stampOrder_stamp (a b : ValueSet) : stampOrder (stamp a) (stamp b) = winnerOrder a b := rfl

theorem firstDelivered_iff {ops : List ValueSet} {op : ValueSet} :
    FirstDelivered ops op ↔ ops.find? (fun a => key a = key op) = some op := by
  rw [List.find?_eq_some_iff_append]
  simp [FirstDelivered]

theorem FirstDelivered.append {ops : List ValueSet} {op : ValueSet} (h : FirstDelivered ops op)
    (later : List ValueSet) : FirstDelivered (ops ++ later) op := by
  obtain ⟨front, back, rfl, hfirst⟩ := h
  exact ⟨front, back ++ later, by simp, hfirst⟩

/-! ## Runs as deliveries -/

theorem delivered_append (front back : List ValueInput) :
    delivered (front ++ back) = delivered front ++ delivered back :=
  List.filterMap_append

theorem run_eq_deliver (inputs : List ValueInput) : run inputs = deliver (delivered inputs) := by
  induction inputs using List.reverseRecOn with
  | nil => rfl
  | append_singleton front input ih =>
      have hrun : run (front ++ [input]) = ((run front).handle input).1 := after_concat _ _ _ _
      rw [hrun, ih, delivered_append]
      cases input with
      | set op => exact (deliver_concat (delivered front) op).symm
      | read request =>
          have hnone : delivered [.read request] = [] := rfl
          rw [hnone, List.append_nil]
          rfl

/-! ## The greatest write -/

/-- Two different writes that are each the first of their key never compare equal. -/
theorem FirstDelivered.lt_of_isLE {ops : List ValueSet} {a b : ValueSet}
    (ha : FirstDelivered ops a) (hb : FirstDelivered ops b) (hne : a ≠ b)
    (hle : (winnerOrder a b).isLE = true) : winnerOrder a b = .lt := by
  cases hcase : winnerOrder a b with
  | lt => rfl
  | gt => simp [hcase] at hle
  | eq =>
      have hkey := (winnerOrder_eq_eq hcase).1
      rw [firstDelivered_iff] at ha hb
      rw [hkey, hb] at ha
      exact absurd (Option.some.inj ha).symm hne

/-- The winner of a run is above every other accepted write. -/
theorem run_winner_iff (inputs : List ValueInput) (op : ValueSet) :
    (run inputs).winner = some op ↔ FirstDelivered (delivered inputs) op ∧
      ∀ a, FirstDelivered (delivered inputs) a → a ≠ op → winnerOrder a op = .lt := by
  have hvalues : ∀ a, a ∈ (run inputs).ops.toList.map Prod.snd ↔
      FirstDelivered (delivered inputs) a := by
    intro a
    rw [run_eq_deliver, mem_values, firstDelivered_iff]
  constructor
  · intro hwinner
    have hmem := mem_of_maxBy hwinner
    have hne : (run inputs).ops.toList.map Prod.snd ≠ [] := List.ne_nil_of_mem hmem
    obtain ⟨top, htop, hgreatest⟩ := exists_greatest winnerOrder hne
    have habove : ∀ a ∈ (run inputs).ops.toList.map Prod.snd, a ≠ top →
        winnerOrder a top = .lt := by
      intro a ha hne
      exact ((hvalues a).mp ha).lt_of_isLE ((hvalues top).mp htop) hne (hgreatest a ha)
    have heq : some op = some top := by
      rw [← hwinner, ValueNode.winner, maxBy_eq_some htop habove]
    obtain rfl := Option.some.inj heq
    exact ⟨(hvalues op).mp htop, fun a ha => habove a ((hvalues a).mpr ha)⟩
  · rintro ⟨hfirst, habove⟩
    apply maxBy_eq_some ((hvalues op).mpr hfirst)
    intro a ha
    exact habove a ((hvalues a).mp ha)

theorem run_winner_none_iff (inputs : List ValueInput) :
    (run inputs).winner = none ↔ ∀ op, ¬ FirstDelivered (delivered inputs) op := by
  constructor
  · intro hnone op hfirst
    have hmem : op ∈ (run inputs).ops.toList.map Prod.snd := by
      rw [run_eq_deliver, mem_values, ← firstDelivered_iff]
      exact hfirst
    rw [ValueNode.winner] at hnone
    cases hops : (run inputs).ops.toList.map Prod.snd with
    | nil => simp [hops] at hmem
    | cons first rest => simp [hops, maxBy] at hnone
  · intro hall
    cases hwinner : (run inputs).winner with
    | none => rfl
    | some op => exact absurd ((run_winner_iff inputs op).mp hwinner).1 (hall op)

/-- A later winner is at least as great. -/
theorem winner_rises {front back : List ValueInput} {op : ValueSet}
    (h : (run front).winner = some op) :
    ∃ op', (run (front ++ back)).winner = some op' ∧ (winnerOrder op op').isLE = true := by
  have hfirst : FirstDelivered (delivered (front ++ back)) op := by
    rw [delivered_append]
    exact ((run_winner_iff front op).mp h).1.append _
  cases hwinner : (run (front ++ back)).winner with
  | none => exact absurd hfirst ((run_winner_none_iff _).mp hwinner op)
  | some op' =>
      refine ⟨op', rfl, ?_⟩
      by_cases heq : op = op'
      · have hself : winnerOrder op' op' = .eq := Std.ReflCmp.compare_self
        rw [heq, hself]
        rfl
      · rw [((run_winner_iff _ op').mp hwinner).2 op hfirst heq]
        rfl

/-! ## Ignored writes -/

theorem ValueNode.set_of_mem {n : ValueNode} {op prior : ValueSet}
    (h : n.ops[key op]? = some prior) : (n.set op).1 = n := by
  simp only [set, h]
  split <;> rfl

theorem run_ignores (front : List ValueInput) (op : ValueSet)
    (h : .diagnostic ⟨.error, .equivocation⟩ ∈ ((run front).set op).2 ∨
      ∃ a ∈ delivered front, key a = key op) : run (front ++ [.set op]) = run front := by
  have hrun : run (front ++ [.set op]) = ((run front).set op).1 := after_concat _ _ _ _
  rw [hrun]
  cases hprior : (run front).ops[key op]? with
  | some prior => exact ValueNode.set_of_mem hprior
  | none =>
      rcases h with hreport | ⟨a, ha, hkey⟩
      · simp [ValueNode.set, hprior] at hreport
      · rw [run_eq_deliver, deliver_getElem?, List.find?_eq_none] at hprior
        exact absurd (by simpa using hkey) (hprior a ha)

/-! ## Returned stamps -/

theorem returnedStamps_concat (front : List ValueInput) (input : ValueInput) :
    returnedStamps (front ++ [input]) = returnedStamps front ++ match input with
      | .set _ => []
      | .read _ => ((run front).winner.map stamp).toList := by
  rw [returnedStamps, outputs_append, List.flatten_append, List.filterMap_append]
  congr 1
  cases input with
  | set op =>
      simp only [outputs, ValueNode.handle, List.flatten_cons, List.flatten_nil, List.append_nil,
        ValueNode.set]
      split
      · split <;> rfl
      · rfl
  | read request =>
      have hread := read_winner (run front) request
      rw [run] at hread
      simp only [outputs, ValueNode.handle, List.flatten_cons, List.flatten_nil, List.append_nil,
        List.filterMap_cons, List.filterMap_nil, hread, run]
      cases (after ValueNode.handle ValueNode.new front).winner <;> rfl

theorem mem_returnedStamps {inputs : List ValueInput} {s : ValueStamp}
    (h : s ∈ returnedStamps inputs) :
    ∃ front back op, inputs = front ++ back ∧ (run front).winner = some op ∧ stamp op = s := by
  induction inputs using List.reverseRecOn with
  | nil => simp [returnedStamps, outputs] at h
  | append_singleton front input ih =>
      rw [returnedStamps_concat, List.mem_append] at h
      rcases h with hfront | hlast
      · obtain ⟨first, back, op, rfl, hwinner, hstamp⟩ := ih hfront
        exact ⟨first, back ++ [input], op, List.append_assoc _ _ _, hwinner, hstamp⟩
      · cases input with
        | set op => simp at hlast
        | read request =>
            rw [Option.mem_toList, Option.map_eq_some_iff] at hlast
            obtain ⟨op, hwinner, hstamp⟩ := hlast
            exact ⟨front, [.read request], op, rfl, hwinner, hstamp⟩

/-- The stamps of the winners never decrease along a run. -/
theorem returnedStamps_pairwise (inputs : List ValueInput) :
    (returnedStamps inputs).Pairwise fun a b => (stampOrder a b).isLE = true := by
  induction inputs using List.reverseRecOn with
  | nil => exact .nil
  | append_singleton front input ih =>
      rw [returnedStamps_concat, List.pairwise_append]
      refine ⟨ih, ?_, ?_⟩
      · cases input with
        | set op => exact .nil
        | read request =>
            cases (run front).winner with
            | none => exact .nil
            | some op => exact List.pairwise_singleton _ _
      · intro s hs s' hs'
        cases input with
        | set op => simp at hs'
        | read request =>
            obtain ⟨first, back, op, rfl, hwinner, rfl⟩ := mem_returnedStamps hs
            obtain ⟨op', hlater, hle⟩ := winner_rises hwinner
            rw [hlater] at hs'
            obtain rfl : s' = stamp op' := by simpa using hs'
            rw [stampOrder_stamp]
            exact hle

/-! ## The law -/

/-- A write above all other ones that came first of their key. -/
def Greatest (ops : List ValueSet) (op : ValueSet) : Prop :=
  FirstDelivered ops op ∧ ∀ a, FirstDelivered ops a → a ≠ op → winnerOrder a op = .lt

inductive Returns (ops : List ValueSet) (request : ValueReadRequest) : ValueReadResponse → Prop
  | empty (hnone : ∀ op, ¬ FirstDelivered ops op) :
      Returns ops request ⟨request.valueId, request.streamId, none, none, .empty⟩
  | data (op : ValueSet) (hgreatest : Greatest ops op) (honly : ∀ a, Greatest ops a → a = op) :
      Returns ops request ⟨request.valueId, request.streamId, some op.payload, some (stamp op),
        .data⟩

theorem run_returns (inputs : List ValueInput) (request : ValueReadRequest) :
    Returns (delivered inputs) request ((run inputs).read request) := by
  unfold ValueNode.read
  cases hwinner : (run inputs).winner with
  | none => exact .empty ((run_winner_none_iff inputs).mp hwinner)
  | some op =>
      apply Returns.data op ((run_winner_iff inputs op).mp hwinner)
      intro a ha
      have hsame := (run_winner_iff inputs a).mpr ha
      rw [hwinner] at hsame
      exact (Option.some.inj hsame).symm

/-- **The read of the register is a monotone maximum.**  It returns the one write that is
greatest among those that came first of their key, and nothing exactly when no write
was delivered; a write that is reported or whose key is known changes no later output;
and the winner stamps that a run returns never decrease. -/
theorem lww_read_law (inputs : List ValueInput) :
    (∀ request, Returns (delivered inputs) request ((run inputs).read request)) ∧
      (∀ request, ((run inputs).read request).state = .empty ↔
        ∀ op, ¬ FirstDelivered (delivered inputs) op) ∧
      (∀ op later,
        (.diagnostic ⟨.error, .equivocation⟩ ∈ ((run inputs).handle (.set op)).2 ∨
          ∃ a ∈ delivered inputs, key a = key op) →
        outputs ValueNode.handle (run (inputs ++ [.set op])) later =
          outputs ValueNode.handle (run inputs) later) ∧
      (returnedStamps inputs).Pairwise fun a b => (stampOrder a b).isLE = true := by
  refine ⟨run_returns inputs, ?_, ?_, returnedStamps_pairwise inputs⟩
  · intro request
    rw [← run_winner_none_iff, ValueNode.read]
    cases (run inputs).winner <;> simp
  · intro op later hignored
    rw [run_ignores inputs op hignored]

end TautShape.Value
