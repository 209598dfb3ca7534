import TautShape.Crdt.Invariant
/-!
# Reads

What a read answers, case by case, and which operations it hands over.  On a node
that satisfies the invariant the operations above a clock between the floor and
the node's clock are exactly the integrated ones that clock does not cover.
-/

namespace TautShape.Crdt

open TautShape.Lib

namespace CrdtNode

theorem mem_operations {n : CrdtNode} {op : CrdtOp} :
    op ∈ n.operations ↔ ∃ k ∈ n.integrated, n.ops[k]? = some op := by
  simp [operations, List.mem_filterMap]

theorem mem_opsAbove {n : CrdtNode} {base : ClockMap} {op : CrdtOp} :
    op ∈ n.opsAbove base ↔
      ∃ k ∈ n.integrated, base.getD k.origin 0 < k.seq ∧ n.ops[k]? = some op := by
  simp [opsAbove, List.mem_filterMap, List.mem_filter, and_assoc]

theorem opsAbove_keys {n : CrdtNode} (hn : Wf n) (base : ClockMap) :
    (n.opsAbove base).map key =
      n.integrated.toList.filter fun k => decide (base.getD k.origin 0 < k.seq) := by
  have hkeys : ∀ ks : List OpKey, (∀ k ∈ ks, k ∈ n.integrated) →
      (ks.filterMap fun k => n.ops[k]?).map key = ks := by
    intro ks hks
    induction ks with
    | nil => rfl
    | cons k rest ih =>
        obtain ⟨op, hop⟩ := exists_getElem?_of_mem (hn.stored k (hks k (by simp)))
        rw [List.filterMap_cons_some hop, List.map_cons, ← hn.keyed k op hop,
          ih fun k' hk' => hks k' (List.mem_cons_of_mem k hk')]
  refine hkeys _ fun k hk => ?_
  exact Std.ExtTreeSet.mem_toList.mp (List.mem_filter.mp hk).1

theorem opsAbove_keys_nodup {n : CrdtNode} (hn : Wf n) (base : ClockMap) :
    ((n.opsAbove base).map key).Nodup := by
  rw [opsAbove_keys hn]
  exact (toList_nodup n.integrated).filter _

theorem belowFloor_iff {n : CrdtNode} {cursor : ClockMap} :
    n.belowFloor cursor = true ↔
      ∃ (o : String) (s : Int), n.floor[o]? = some s ∧ cursor.getD o 0 < s := by
  simp [belowFloor, Std.ExtTreeMap.mem_toList_iff_getElem?_eq_some]

/-- The cursor names nothing the node has not integrated. -/
def CursorKnown (n : CrdtNode) (cursor : ClockMap) : Prop :=
  ∀ (o : String) (s : Int), cursor[o]? = some s → s ≤ n.clock.getD o 0

inductive Reads (n : CrdtNode) (request : CrdtReadRequest) : CrdtReadResponse → Prop where
  | malformed (h : requestCursor request = none) :
      Reads n request (n.response request .invalidCursor none [] none)
  | ahead (cursor : ClockMap) (hcursor : requestCursor request = some cursor)
      (h : ¬ n.CursorKnown cursor) :
      Reads n request (n.response request .invalidCursor none [] none)
  | rebased (cursor : ClockMap) (hcursor : requestCursor request = some cursor)
      (hknown : n.CursorKnown cursor) (hsome : request.cursor.isSome = true)
      (hbelow : n.belowFloor cursor = true)
      (hany : n.bootstrap.isSome = true ∨ n.opsAbove n.floor ≠ []) :
      Reads n request
        (n.response request .bootstrapRequired n.bootstrap (n.opsAbove n.floor) none)
  | data (cursor : ClockMap) (hcursor : requestCursor request = some cursor)
      (hknown : n.CursorKnown cursor)
      (habove : request.cursor.isSome = false ∨ n.belowFloor cursor = false)
      (hany : (request.cursor.isNone = true ∧ n.bootstrap.isSome = true) ∨
        n.opsAbove cursor ≠ []) :
      Reads n request (n.response request .data
        (if request.cursor.isNone then n.bootstrap else none) (n.opsAbove cursor) none)
  | rebasedDrained (cursor : ClockMap) (hcursor : requestCursor request = some cursor)
      (hknown : n.CursorKnown cursor) (hsome : request.cursor.isSome = true)
      (hbelow : n.belowFloor cursor = true) (hnone : n.bootstrap = none)
      (hempty : n.opsAbove n.floor = []) : Reads n request (n.drainedResponse request)
  | drained (cursor : ClockMap) (hcursor : requestCursor request = some cursor)
      (hknown : n.CursorKnown cursor)
      (habove : request.cursor.isSome = false ∨ n.belowFloor cursor = false)
      (hempty : n.opsAbove cursor = []) : Reads n request (n.drainedResponse request)

theorem read_spec (n : CrdtNode) (request : CrdtReadRequest) :
    Reads n request (n.read request) := by
  unfold read
  cases hcursor : requestCursor request with
  | none => exact .malformed hcursor
  | some cursor =>
      have hahead : (cursor.toList.any fun p => decide (n.clock.getD p.1 0 < p.2)) = true ↔
          ¬ n.CursorKnown cursor := by
        simp [CursorKnown, Std.ExtTreeMap.mem_toList_iff_getElem?_eq_some]
      simp only
      split
      · rename_i h
        exact .ahead cursor hcursor (hahead.mp h)
      · rename_i h
        have hknown : n.CursorKnown cursor := not_not.mp (mt hahead.mpr h)
        by_cases hrebase : (request.cursor.isSome && n.belowFloor cursor) = true
        · rw [if_pos hrebase]
          simp only [Bool.and_eq_true] at hrebase
          split
          · rename_i hany
            exact .rebased cursor hcursor hknown hrebase.1 hrebase.2 (by simpa using hany)
          · rename_i hnone
            simp only [Bool.or_eq_true, not_or, Bool.not_eq_true, Option.isSome_eq_false_iff,
              Option.isNone_iff_eq_none, Bool.not_eq_false', List.isEmpty_iff] at hnone
            exact .rebasedDrained cursor hcursor hknown hrebase.1 hrebase.2 hnone.1 hnone.2
        · rw [if_neg hrebase]
          have habove : request.cursor.isSome = false ∨ n.belowFloor cursor = false := by
            simpa only [Bool.and_eq_true, not_and_or, Bool.not_eq_true] using hrebase
          dsimp only
          by_cases hany : ((if request.cursor.isNone then n.bootstrap else none).isSome ||
              !(n.opsAbove cursor).isEmpty) = true
          · rw [if_pos hany]
            refine .data cursor hcursor hknown habove ?_
            simp only [Bool.or_eq_true, Bool.not_eq_true', List.isEmpty_eq_false_iff] at hany
            refine hany.imp_left fun hsome => ?_
            split at hsome
            · rename_i hnone
              exact ⟨hnone, hsome⟩
            · simp at hsome
          · rw [if_neg hany]
            refine .drained cursor hcursor hknown habove ?_
            simp only [Bool.or_eq_true, not_or, Bool.not_eq_true, Bool.not_eq_false',
              List.isEmpty_iff] at hany
            exact hany.2

@[simp] theorem drainedResponse_ops (n : CrdtNode) (request : CrdtReadRequest) :
    (n.drainedResponse request).ops = [] := by
  unfold drainedResponse
  split_ifs <;> rfl

@[simp] theorem drainedResponse_bootstrap (n : CrdtNode) (request : CrdtReadRequest) :
    (n.drainedResponse request).bootstrap = none := by
  unfold drainedResponse
  split_ifs <;> rfl

@[simp] theorem drainedResponse_nextCursor (n : CrdtNode) (request : CrdtReadRequest) :
    (n.drainedResponse request).nextCursor = n.clockMessage := by
  unfold drainedResponse
  split_ifs <;> rfl

theorem drainedResponse_state (n : CrdtNode) (request : CrdtReadRequest) :
    (n.drainedResponse request).state ≠ .data ∧
      (n.drainedResponse request).state ≠ .bootstrapRequired ∧
      (n.drainedResponse request).state ≠ .invalidCursor := by
  unfold drainedResponse
  split_ifs <;> simp [response]

/-- A read hands over operations the accessor would list too. -/
theorem read_ops_subset {n : CrdtNode} {request : CrdtReadRequest} {op : CrdtOp}
    (h : op ∈ (n.read request).ops) : op ∈ n.operations := by
  have habove : ∀ base, op ∈ n.opsAbove base → op ∈ n.operations := by
    intro base hop
    obtain ⟨k, hk, -, hstored⟩ := mem_opsAbove.mp hop
    exact mem_operations.mpr ⟨k, hk, hstored⟩
  have hspec := n.read_spec request
  generalize n.read request = result at hspec h
  cases hspec with
  | malformed _ => simp [response] at h
  | ahead _ _ _ => simp [response] at h
  | rebased _ _ _ _ _ _ => exact habove _ h
  | data _ _ _ _ _ => exact habove _ h
  | rebasedDrained _ _ _ _ _ _ _ => simp at h
  | drained _ _ _ _ _ => simp at h

end CrdtNode

end TautShape.Crdt
