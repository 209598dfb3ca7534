import TautShape.Log.History
/-!
# What eviction leaves and where the floor stands

The evicted records are always the first ones of the history, one less than the
floor says.  The floor is computed from the request and the head, so an eviction
asked of a log that never had a record lifts it to 1 although nothing was dropped.
-/

namespace TautShape.Log

open TautShape.Lib

/-! ## The evicted records -/

def LogNode.dropped (n : LogNode) (input : Input) : List Record :=
  n.window.records.filter fun record => decide (record ∉ (n.handle input).1.window.records)

def evictedFrom : LogNode → List Input → List Record
  | _, [] => []
  | n, input :: rest => n.dropped input ++ evictedFrom (n.handle input).1 rest

def evicted (config : Config) (inputs : List Input) : List Record :=
  evictedFrom (LogNode.new config) inputs

/-- The lowest sequence number in the window, the next one to be assigned if there is
none. -/
def Window.lowestRetained (w : Window) : Nat :=
  (w.records.map Record.seq).min?.getD (w.head + 1)

theorem evictedFrom_append (n : LogNode) (front back : List Input) :
    evictedFrom n (front ++ back) =
      evictedFrom n front ++ evictedFrom (after LogNode.handle n front) back := by
  induction front generalizing n with
  | nil => rfl
  | cons input front ih =>
      rw [List.cons_append, evictedFrom, ih, evictedFrom, List.append_assoc, after_cons]

theorem evicted_concat (config : Config) (front : List Input) (input : Input) :
    evicted config (front ++ [input]) =
      evicted config front ++ (run config front).dropped input := by
  rw [evicted, evictedFrom_append, evictedFrom, evictedFrom, List.append_nil]
  rfl

/-! ## Numbered tails -/

theorem mem_numbered_drop {history : List Bytes} {start : Nat} {record : Record} :
    record ∈ (numbered history).drop start ↔ record ∈ numbered history ∧ start < record.seq := by
  rw [List.mem_iff_getElem?, List.mem_iff_getElem?]
  constructor
  · rintro ⟨i, hget⟩
    rw [List.getElem?_drop] at hget
    have hseq := seq_of_getElem? hget
    exact ⟨⟨start + i, hget⟩, by omega⟩
  · rintro ⟨⟨i, hget⟩, hlt⟩
    have hseq := seq_of_getElem? hget
    use i - start
    rw [List.getElem?_drop, ← hget]
    congr 1
    omega

theorem seq_of_mem_slice {history : List Bytes} {lo hi : Nat} {record : Record}
    (h : record ∈ slice history lo hi) : lo < record.seq ∧ record.seq ≤ hi := by
  obtain ⟨i, hget⟩ := List.getElem?_of_mem h
  rw [slice, List.getElem?_drop, List.getElem?_take] at hget
  split at hget
  · have hseq := seq_of_getElem? hget
    omega
  · simp at hget

theorem drop_eq_slice_append (history : List Bytes) {start later : Nat} (hle : start ≤ later)
    (hlater : later ≤ history.length) :
    (numbered history).drop start =
      slice history start later ++ (numbered history).drop later := by
  have hall : ∀ lo, slice history lo history.length = (numbered history).drop lo := by
    intro lo
    rw [slice, List.take_of_length_le (length_numbered history).le]
  rw [← hall start, ← hall later, slice_append hle hlater]

theorem filter_lt_drop (history : List Bytes) (start upTo : Nat) :
    ((numbered history).drop start).filter (fun record => decide (upTo < record.seq)) =
      (numbered history).drop (max start upTo) := by
  by_cases hlater : max start upTo ≤ history.length
  · have hlow : (slice history start (max start upTo)).filter
        (fun record => decide (upTo < record.seq)) = [] := by
      rw [List.filter_eq_nil_iff]
      intro record hmem
      have hseq := seq_of_mem_slice hmem
      rw [decide_eq_true_eq]
      omega
    have hhigh : ((numbered history).drop (max start upTo)).filter
        (fun record => decide (upTo < record.seq)) = (numbered history).drop (max start upTo) := by
      rw [List.filter_eq_self]
      intro record hmem
      have hseq := (mem_numbered_drop.mp hmem).2
      rw [decide_eq_true_eq]
      omega
    rw [drop_eq_slice_append history (le_max_left start upTo) hlater, List.filter_append, hlow,
      hhigh, List.nil_append]
  · have hnil : (numbered history).drop (max start upTo) = [] := by
      apply List.drop_eq_nil_of_le
      rw [length_numbered]
      omega
    rw [hnil, List.filter_eq_nil_iff]
    intro record hmem
    obtain ⟨i, hget⟩ := List.getElem?_of_mem hmem
    rw [List.getElem?_drop] at hget
    have hseq := seq_of_getElem? hget
    have hbound := (List.getElem?_eq_some_iff.mp hget).1
    rw [length_numbered] at hbound
    rw [decide_eq_true_eq]
    omega

theorem filter_not_mem_drop (history : List Bytes) {start later : Nat} (hle : start ≤ later)
    (hlater : later ≤ history.length) :
    ((numbered history).drop start).filter
      (fun record => decide (record ∉ (numbered history).drop later)) =
      slice history start later := by
  have hlow : (slice history start later).filter
      (fun record => decide (record ∉ (numbered history).drop later)) =
      slice history start later := by
    rw [List.filter_eq_self]
    intro record hmem
    have hseq := seq_of_mem_slice hmem
    rw [decide_eq_true_eq, mem_numbered_drop]
    omega
  have hhigh : ((numbered history).drop later).filter
      (fun record => decide (record ∉ (numbered history).drop later)) = [] := by
    rw [List.filter_eq_nil_iff]
    intro record hmem
    simpa using hmem
  rw [drop_eq_slice_append history hle hlater, List.filter_append, hlow, hhigh, List.append_nil]

/-! ## One input -/

theorem Window.floor_react (w : Window) (input : Input) :
    (w.react input).floor = match input with
      | .evict upToSeq => if upToSeq = 0 then w.floor else max w.floor (min upToSeq w.head + 1)
      | _ => w.floor := by
  cases input with
  | push payload =>
      simp only [react]
      split <;> rfl
  | «seal» =>
      simp only [react, Window.seal]
      split <;> rfl
  | close error =>
      simp only [react, Window.close]
      split <;> rfl
  | evict upToSeq =>
      simp only [react, Window.evict]
      split
      · rfl
      · simp only
        split <;> omega
  | read id cursor limits timeoutMs => rfl
  | endStream id => rfl
  | timerExpired token => rfl

theorem Window.floor_le_react (w : Window) (input : Input) : w.floor ≤ (w.react input).floor := by
  rw [floor_react]
  split
  · split <;> omega
  · exact le_rfl

/-- Only an eviction asked of a log without records leads to a floor of 1. -/
theorem Window.floor_react_eq_one {w : Window} (hfloor : w.floor ≠ 1) (input : Input) :
    (w.react input).floor = 1 ↔ ∃ upToSeq, input = .evict upToSeq ∧ upToSeq ≠ 0 ∧
      w.floor = 0 ∧ w.head = 0 := by
  rw [floor_react]
  split
  · rename_i upToSeq
    constructor
    · intro hone
      use upToSeq
      split at hone
      · omega
      · refine ⟨rfl, ?_, ?_, ?_⟩ <;> omega
    · rintro ⟨_, heq, hpos, hzero, hhead⟩
      obtain rfl := Input.evict.inj heq
      rw [if_neg hpos]
      omega
  · rename_i hother
    apply iff_of_false hfloor
    rintro ⟨upToSeq, heq, -⟩
    exact hother upToSeq heq

theorem Window.Holds.floor_react_le {w : Window} {history : List Bytes} (h : w.Holds history)
    (input : Input) : (w.react input).floor ≤ history.length + 1 := by
  have hfloor := h.floor_le
  have hhead := h.head_eq
  rw [floor_react]
  split
  · split <;> omega
  · exact hfloor

theorem Books.dropped {n : LogNode} {L : LogLedger} (h : Books n L) {history : List Bytes}
    (hholds : n.window.Holds history) (input : Input) :
    n.dropped input =
      slice history (n.floor - 1) ((n.handle input).1.floor - 1) := by
  have hafter := h.holds hholds input
  have hfloor := n.window.floor_le_react input
  have hbound := hholds.floor_react_le input
  rw [← h.window_handle input] at hfloor hbound
  have hgone : ∀ record ∈ n.window.records,
      decide (record ∉ (n.handle input).1.window.records) =
        decide (record ∉ (numbered history).drop ((n.handle input).1.floor - 1)) := by
    intro record hmem
    rw [hholds.records_eq, mem_numbered_drop] at hmem
    have hlonger : record ∈ numbered (history ++ n.accepted input) := by
      rw [numbered, List.mapIdx_append]
      exact List.mem_append_left _ hmem.1
    rw [decide_eq_decide, hafter.records_eq, mem_numbered_drop, mem_numbered_drop]
    simp only [hmem.1, hlonger]
    rfl
  rw [LogNode.dropped, List.filter_congr hgone, hholds.records_eq]
  apply filter_not_mem_drop
  · exact Nat.sub_le_sub_right hfloor 1
  · exact Nat.sub_le_of_le_add hbound

/-! ## Runs -/

/-- The evicted records are those of the history below the floor. -/
theorem run_evicted (config : Config) (inputs : List Input) :
    evicted config inputs =
      slice (history config inputs) 0 ((run config inputs).floor - 1) := by
  induction inputs using List.reverseRecOn with
  | nil => rfl
  | append_singleton front input ih =>
      obtain ⟨L, -, hbooks, -⟩ := run_books config front
      have hholds := run_holds config front
      have hrun : run config (front ++ [input]) = ((run config front).handle input).1 :=
        after_concat _ _ _ _
      have hmono := (run config front).window.floor_le_react input
      have hbound := hholds.floor_react_le input
      rw [← hbooks.window_handle input] at hmono hbound
      have hlonger := history_extends config (List.prefix_append front [input])
      calc evicted config (front ++ [input])
          = slice (history config front) 0 ((run config front).floor - 1) ++
              slice (history config front) ((run config front).floor - 1)
                (((run config front).handle input).1.floor - 1) := by
            rw [evicted_concat, ih, hbooks.dropped hholds input]
        _ = slice (history config front) 0 (((run config front).handle input).1.floor - 1) :=
            slice_append (Nat.zero_le _) (Nat.sub_le_sub_right hmono 1)
        _ = slice (history config (front ++ [input])) 0
              ((run config (front ++ [input])).floor - 1) := by
            rw [hrun]
            exact (slice_of_extends hlonger (Nat.sub_le_of_le_add hbound)).symm

theorem evicted_eq_nil_iff (config : Config) (inputs : List Input) :
    evicted config inputs = [] ↔ (run config inputs).floor ≤ 1 := by
  have hfloor := (run_holds config inputs).floor_le
  rw [run_evicted, ← List.length_eq_zero_iff, length_slice, LogNode.floor]
  omega

/-- A floor above 0 is the lowest number that is retained. -/
theorem floor_eq_lowestRetained {w : Window} {history : List Bytes} (h : w.Holds history)
    (hpos : 1 ≤ w.floor) : w.floor = w.lowestRetained := by
  have hfloor := h.floor_le
  have hhead := h.head_eq
  rw [Window.lowestRetained]
  cases hrecords : w.records with
  | nil =>
      rw [h.records_eq, List.drop_eq_nil_iff, length_numbered] at hrecords
      simp only [List.map_nil, List.min?_nil, Option.getD_none]
      omega
  | cons front rest =>
      have hmin : ((front :: rest).map Record.seq).min? = some w.floor := by
        rw [List.min?_eq_some_iff]
        rw [← hrecords, h.records_eq]
        constructor
        · have hget : (numbered history)[w.floor - 1]? = some front := by
            rw [← Nat.add_zero (w.floor - 1), ← List.getElem?_drop, ← h.records_eq, hrecords]
            rfl
          have hseq := seq_of_getElem? hget
          rw [← h.records_eq, hrecords, List.map_cons]
          apply List.mem_cons.mpr
          left
          omega
        · intro seq hmem
          obtain ⟨record, hrecord, rfl⟩ := List.mem_map.mp hmem
          have hlow := (mem_numbered_drop.mp hrecord).2
          omega
      rw [hmin, Option.getD_some]

/-! ## The law -/

/-- What a run is to do with evictions: each drops the records up to its bound, the floor
never falls, and in every state it is 0 if nothing was evicted yet and otherwise the
lowest number that is retained. -/
structure EvictionLaw (config : Config) (inputs : List Input) : Prop where
  drops : ∀ front upToSeq, front ++ [.evict upToSeq] <+: inputs →
    (run config (front ++ [.evict upToSeq])).window.records =
      (run config front).window.records.filter fun record => decide (upToSeq < record.seq)
  rises : ∀ front input, front ++ [input] <+: inputs →
    (run config front).floor ≤ (run config (front ++ [input])).floor
  floor : ∀ front, front <+: inputs →
    ((run config front).floor = 0 ↔ evicted config front = []) ∧
      (evicted config front ≠ [] →
        (run config front).floor = (run config front).window.lowestRetained)

theorem run_evict_records (config : Config) (front : List Input) (upToSeq : Nat) :
    (run config (front ++ [.evict upToSeq])).window.records =
      (run config front).window.records.filter fun record => decide (upToSeq < record.seq) := by
  have hholds := run_holds config front
  have hrun : run config (front ++ [.evict upToSeq]) =
      ((run config front).handle (.evict upToSeq)).1 := after_concat _ _ _ _
  have hrecords : (run config (front ++ [.evict upToSeq])).window.records =
      ((run config front).window.evict upToSeq).records := by rw [hrun]; rfl
  rw [hrecords, Window.evict, hholds.records_eq, filter_lt_drop]
  split
  · rename_i hzero
    rw [hzero, hholds.records_eq, Nat.max_zero]
  · exact Window.dropWhile_numbered _ _ _

theorem run_floor_le (config : Config) (front : List Input) (input : Input) :
    (run config front).floor ≤ (run config (front ++ [input])).floor := by
  obtain ⟨L, -, hbooks, -⟩ := run_books config front
  have hrun : run config (front ++ [input]) = ((run config front).handle input).1 :=
    after_concat _ _ _ _
  rw [hrun, LogNode.floor, LogNode.floor, hbooks.window_handle input]
  exact Window.floor_le_react _ input

/-- No record was evicted and yet the floor is not 0, exactly after an eviction was asked
of a log without records. -/
theorem floor_ne_one_iff (config : Config) (inputs : List Input) :
    (∀ front, front <+: inputs → (run config front).floor ≠ 1) ↔
      ∀ front upToSeq, front ++ [.evict upToSeq] <+: inputs → upToSeq ≠ 0 →
        (run config front).head ≠ 0 := by
  have hstep : ∀ front input, (run config front).floor ≠ 1 →
      ((run config (front ++ [input])).floor = 1 ↔ ∃ upToSeq, input = .evict upToSeq ∧
        upToSeq ≠ 0 ∧ (run config front).floor = 0 ∧ (run config front).head = 0) := by
    intro front input hfloor
    obtain ⟨L, -, hbooks, -⟩ := run_books config front
    have hrun : run config (front ++ [input]) = ((run config front).handle input).1 :=
      after_concat _ _ _ _
    rw [hrun, LogNode.floor, hbooks.window_handle input]
    exact Window.floor_react_eq_one hfloor input
  constructor
  · intro hnever front upToSeq hfront hpos hhead
    have hbefore := hnever front ((List.prefix_append _ _).trans hfront)
    have hzero : (run config front).floor = 0 := by
      have hbound := (run_holds config front).floor_le
      have hlength := (run_holds config front).head_eq
      rw [LogNode.head] at hhead
      rw [LogNode.floor] at hbefore ⊢
      omega
    exact hnever _ hfront ((hstep front _ hbefore).mpr ⟨upToSeq, rfl, hpos, hzero, hhead⟩)
  · intro hasked front
    induction front using List.reverseRecOn with
    | nil =>
        intro _
        show 0 ≠ 1
        exact Nat.zero_ne_one
    | append_singleton front input ih =>
        intro hfront hone
        have hbefore := ih ((List.prefix_append _ _).trans hfront)
        obtain ⟨upToSeq, rfl, hpos, -, hhead⟩ := (hstep front input hbefore).mp hone
        exact hasked front upToSeq hfront hpos hhead

/-- **The eviction law holds of a run exactly when no eviction comes before the first
record.**  An `Evict` with a bound above 0 that finds the head at 0 lifts the floor to 1,
though no record was ever evicted; every other run keeps the law in all its states. -/
theorem eviction_law_iff (config : Config) (inputs : List Input) :
    EvictionLaw config inputs ↔
      ∀ front upToSeq, front ++ [.evict upToSeq] <+: inputs → upToSeq ≠ 0 →
        (run config front).head ≠ 0 := by
  rw [← floor_ne_one_iff]
  constructor
  · intro hlaw front hfront hone
    have hnone := (evicted_eq_nil_iff config front).mpr (by omega)
    have hzero := (hlaw.floor front hfront).1.mpr hnone
    omega
  · intro hnever
    constructor
    case drops => exact fun front upToSeq _ => run_evict_records config front upToSeq
    case rises => exact fun front input _ => run_floor_le config front input
    case floor =>
      intro front hfront
      have hone := hnever front hfront
      rw [ne_eq, evicted_eq_nil_iff]
      constructor
      · omega
      · intro hmany
        apply floor_eq_lowestRetained (run_holds config front)
        rw [LogNode.floor] at hmany
        omega

/-- A fresh log that is asked to evict up to 1 has floor 1 and has evicted nothing. -/
theorem evict_before_first_record :
    (run ⟨.explicitOnly⟩ [.evict 1]).floor = 1 ∧ evicted ⟨.explicitOnly⟩ [.evict 1] = [] ∧
      ¬ ∀ config inputs, EvictionLaw config inputs := by
  have hfloor : (run ⟨.explicitOnly⟩ [.evict 1]).floor = 1 := by decide
  have hnone : evicted ⟨.explicitOnly⟩ [.evict 1] = [] := by decide
  refine ⟨hfloor, hnone, fun hlaw => ?_⟩
  have hzero := ((hlaw ⟨.explicitOnly⟩ [.evict 1]).floor [.evict 1] (List.prefix_refl _)).1.mpr
    hnone
  rw [hfloor] at hzero
  exact Nat.one_ne_zero hzero

end TautShape.Log
