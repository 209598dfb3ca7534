import TautShape.Log.Exchange
import TautShape.Log.Effect
/-!
# The indices of the session table

The table finds the held reads by creation rank and by timer without a walk over its
entries.  After every operation that the engine issues, in the middle of an input as much
as at its end, the two indices give what a walk over the entries gives.
-/

namespace TautShape.Log

open TautShape.Lib

/-! ## The walk over the entries -/

namespace Table

/-- The held reads by creation rank, as a walk and a sort find them. -/
def rankedHeld (t : Table) : List (Nat × StreamId) :=
  ((t.entries.toList.filter fun p => p.2.held.isSome).map fun p => (p.2.created, p.1)).mergeSort
    keyLe

/-- The streams whose held read waits for a timer, as a walk finds them. -/
def waitingFor (t : Table) (token : TimerToken) : List StreamId :=
  (t.entries.toList.filter fun p => decide (p.2.held.bind HeldRead.timer = some token)).map Prod.fst

/-- The indices hold what the entries say, and what is read from them is what a walk finds. -/
structure Indexed (t : Table) : Prop where
  order_iff : ∀ (rank : Nat) (id : StreamId), t.heldOrder[rank]? = some id ↔
    ∃ e, t.entries[id]? = some e ∧ e.created = rank ∧ e.held.isSome = true
  timer_iff : ∀ (token : TimerToken) (id : StreamId), t.timerIndex[token]? = some id ↔
    ∃ e held, t.entries[id]? = some e ∧ e.held = some held ∧ held.timer = some token
  held_eq : t.heldInCreationOrder = t.rankedHeld.map Prod.snd
  waiting_eq : ∀ token, t.waitingFor token = (t.findByTimer token).toList

variable {t : Table}

theorem mem_rankedHeld (rank : Nat) (id : StreamId) : (rank, id) ∈ t.rankedHeld ↔
    ∃ e, t.entries[id]? = some e ∧ e.created = rank ∧ e.held.isSome = true := by
  simp only [rankedHeld, List.mem_mergeSort, List.mem_map, List.mem_filter, Prod.exists,
    Std.ExtTreeMap.mem_toList_iff_getElem?_eq_some, Prod.mk.injEq]
  constructor
  · rintro ⟨id', e, ⟨he, hheld⟩, hrank, rfl⟩
    exact ⟨e, he, hrank, hheld⟩
  · rintro ⟨e, he, hrank, hheld⟩
    exact ⟨id, e, ⟨he, hheld⟩, hrank, rfl⟩

theorem Wf.rankedHeld_ascending (h : t.Wf) : Ascending t.rankedHeld := by
  apply ascending_mergeSort
  apply List.Pairwise.map (R := fun p q => p.2.created ≠ q.2.created) _ fun _ _ hne => hne
  have hentries := (ascending_toList t.entries).nodup.filter fun p => p.2.held.isSome
  refine hentries.imp_of_mem ?_
  rintro ⟨id, e⟩ ⟨id', e'⟩ hmem hmem' hne hcreated
  have he := Std.ExtTreeMap.mem_toList_iff_getElem?_eq_some.mp (List.mem_filter.mp hmem).1
  have he' := Std.ExtTreeMap.mem_toList_iff_getElem?_eq_some.mp (List.mem_filter.mp hmem').1
  obtain rfl := h.created_inj id id' e e' he he' hcreated
  rw [he] at he'
  exact hne (by rw [Option.some.inj he'])

theorem clearHeld_of_none {id : StreamId} (h : t.heldOf id = none) : (t.clearHeld id).1 = t := by
  unfold clearHeld
  cases he : t.entries[id]? with
  | none => rfl
  | some entry =>
      have hnone : entry.held = none := by simpa [heldOf, he] using h
      simp only [hnone]

theorem mem_waitingFor (token : TimerToken) (id : StreamId) : id ∈ t.waitingFor token ↔
    ∃ held, t.heldOf id = some held ∧ held.timer = some token := by
  simp only [waitingFor, List.mem_map, List.mem_filter, Prod.exists, decide_eq_true_eq,
    Std.ExtTreeMap.mem_toList_iff_getElem?_eq_some, exists_and_right, exists_eq_right]
  constructor
  · rintro ⟨e, he, htimer⟩
    rw [Option.bind_eq_some_iff] at htimer
    obtain ⟨held, hheld, htoken⟩ := htimer
    exact ⟨held, by rw [heldOf, he, Option.bind_some, hheld], htoken⟩
  · rintro ⟨held, hheld, htoken⟩
    obtain ⟨e, he, hentry⟩ := Option.bind_eq_some_iff.mp hheld
    exact ⟨e, he, by rw [hentry, Option.bind_some, htoken]⟩

theorem waitingFor_nodup (t : Table) (token : TimerToken) : (t.waitingFor token).Nodup := by
  apply List.pairwise_map.mpr
  refine ((ascending_toList t.entries).filter _).imp ?_
  intro a b hlt heq
  rw [heq, Std.ReflOrd.compare_self] at hlt
  cases hlt

theorem Wf.indexed (h : t.Wf) : t.Indexed where
  order_iff := h.order_iff
  timer_iff token id := by
    rw [h.timer_iff, heldOf]
    constructor
    · rintro ⟨held, hheld, htoken⟩
      obtain ⟨e, he, hentry⟩ := Option.bind_eq_some_iff.mp hheld
      exact ⟨e, held, he, hentry, htoken⟩
    · rintro ⟨e, held, he, hentry, htoken⟩
      exact ⟨held, by rw [he, Option.bind_some, hentry], htoken⟩
  held_eq := by
    have hmem : ∀ rank id, t.heldOrder[rank]? = some id ↔ (rank, id) ∈ t.rankedHeld := by
      intro rank id
      rw [h.order_iff, mem_rankedHeld]
    rw [heldInCreationOrder, toList_eq_of_ascending h.rankedHeld_ascending hmem]
  waiting_eq token := by
    apply eq_toList_of_nodup (t.waitingFor_nodup token)
    intro id
    rw [mem_waitingFor, findByTimer, h.timer_iff]

end Table

/-! ## The operations of the engine -/

/-- The calls that change the table; a watermark is written through `get_mut`. -/
inductive TableOp where
  | getOrCreate (id : StreamId)
  | setWatermark (id : StreamId) (watermark : Nat)
  | remove (id : StreamId)
  | setHeld (id : StreamId) (held : HeldRead)
  | clearHeld (id : StreamId)
deriving DecidableEq, Repr

namespace Table

def apply (t : Table) : TableOp → Table
  | .getOrCreate id => t.getOrCreate id
  | .setWatermark id watermark => t.setWatermark id watermark
  | .remove id => (t.remove id).1
  | .setHeld id held => t.setHeld id held
  | .clearHeld id => (t.clearHeld id).1

/-- What `set_held` asks of its caller: an entry for the stream that holds no read, and a
timer that no other read waits for. -/
def Allows (t : Table) : TableOp → Prop
  | .setHeld id held =>
      (∃ e, t.entries[id]? = some e) ∧ t.heldOf id = none ∧
        ∀ token, held.timer = some token → t.timerIndex[token]? = none
  | _ => True

def Admits : Table → List TableOp → Prop
  | _, [] => True
  | t, op :: ops => t.Allows op ∧ (t.apply op).Admits ops

theorem Wf.apply {t : Table} (h : t.Wf) {op : TableOp} (hallows : t.Allows op) :
    (t.apply op).Wf := by
  cases op with
  | getOrCreate id => exact h.getOrCreate id
  | setWatermark id watermark => exact h.setWatermark id watermark
  | remove id => exact h.remove id
  | setHeld id held => exact h.setHeld hallows.2.1 hallows.2.2
  | clearHeld id => exact h.clearHeld id

theorem admits_append {t : Table} {front back : List TableOp} :
    t.Admits (front ++ back) ↔ t.Admits front ∧ (front.foldl Table.apply t).Admits back := by
  induction front generalizing t with
  | nil => exact (iff_of_eq (true_and _)).symm
  | cons op front ih =>
      rw [List.cons_append, Admits, ih, Admits, and_assoc]
      rfl

structure Leads (t : Table) (ops : List TableOp) (t' : Table) : Prop where
  admits : t.Admits ops
  result : ops.foldl Table.apply t = t'

theorem Leads.append {t t' t'' : Table} {front back : List TableOp} (hfront : t.Leads front t')
    (hback : t'.Leads back t'') : t.Leads (front ++ back) t'' := by
  constructor
  · apply admits_append.mpr
    exact ⟨hfront.admits, hfront.result ▸ hback.admits⟩
  · rw [List.foldl_append, hfront.result, hback.result]

theorem Wf.foldl {t : Table} (h : t.Wf) {ops : List TableOp} (hadmits : t.Admits ops) :
    (ops.foldl Table.apply t).Wf := by
  induction ops generalizing t with
  | nil => exact h
  | cons op ops ih => exact ih (h.apply hadmits.1) hadmits.2

theorem Wf.leads {t t' : Table} {ops : List TableOp} (h : t.Wf) (hleads : t.Leads ops t') :
    t'.Wf :=
  hleads.result ▸ h.foldl hleads.admits

end Table

namespace LogNode

def readOps (n : LogNode) (streamId : StreamId) (cursor : Option Cursor) (limits : Limits)
    (timeoutMs : Option Nat) : List TableOp :=
  let cursor := cursor.getD Cursor.start
  [.getOrCreate streamId, .clearHeld streamId] ++
    match n.classify cursor with
    | .data => [.setWatermark streamId (n.window.scan cursor.seq limits).2]
    | .terminal _ _ | .expired _ => []
    | .caughtUpLive =>
        match timeoutMs with
        | some 0 => []
        | none => [.setHeld streamId ⟨cursor, limits, none⟩]
        | some _ => [.setHeld streamId ⟨cursor, limits, some (n.nextTimer + 1)⟩]

def releaseOps (n : LogNode) (id : StreamId) : List TableOp :=
  .clearHeld id ::
    match n.sessions.heldOf id with
    | none => []
    | some held =>
        match n.classify held.cursor with
        | .data => [.setWatermark id (n.window.scan held.cursor.seq held.limits).2]
        | .terminal _ _ | .expired _ => []
        | .caughtUpLive => [.setHeld id held]

def sweepOps : LogNode → List StreamId → List TableOp
  | _, [] => []
  | n, id :: ids => n.releaseOps id ++ (n.releaseOne id).1.sweepOps ids

def releaseHeldOps (n : LogNode) : List TableOp := n.sweepOps n.sessions.heldInCreationOrder

def tableOps (n : LogNode) : Input → List TableOp
  | .push payload =>
      match n.window.lifecycle with
      | .live => { n with window := n.window.push payload : LogNode }.releaseHeldOps
      | _ => []
  | .seal => { n with window := n.window.seal : LogNode }.releaseHeldOps
  | .close error =>
      match n.window.lifecycle with
      | .closed | .failed _ => []
      | _ => { n with window := n.window.close error : LogNode }.releaseHeldOps
  | .read streamId cursor limits timeoutMs => n.readOps streamId cursor limits timeoutMs
  | .endStream streamId => [.remove streamId]
  | .timerExpired token =>
      match n.sessions.findByTimer token with
      | none => []
      | some id => [.clearHeld id]
  | .evict _ => []

def issued : LogNode → List Input → List TableOp
  | _, [] => []
  | n, input :: rest => n.tableOps input ++ (n.handle input).1.issued rest

theorem onRead_leads {n : LogNode} (hn : n.sessions.Wf) (hused : n.TimersUsed) (id : StreamId)
    (cursor : Option Cursor) (limits : Limits) (timeoutMs : Option Nat) :
    n.sessions.Leads (n.readOps id cursor limits timeoutMs)
      (n.onRead id cursor limits timeoutMs).1.sessions := by
  set sessions := ((n.sessions.getOrCreate id).clearHeld id).1 with hsessions
  have hputs : Puts n.sessions id none sessions := by
    have hclear := puts_clearHeld (hn.getOrCreate id) id
    exact ⟨hclear.wf, fun id' => by rw [hclear.heldOf, Table.heldOf_getOrCreate]⟩
  have hnone : sessions.heldOf id = none := by rw [hputs.heldOf, if_pos rfl]
  have hentry : ∃ e, sessions.entries[id]? = some e :=
    Table.mem_clearHeld (Table.mem_getOrCreate n.sessions id)
  have hfresh : sessions.timerIndex[n.nextTimer + 1]? = none := by
    refine Option.eq_none_iff_forall_ne_some.mpr fun id' hindex => ?_
    obtain ⟨held, hheld, htimer⟩ := (hputs.wf.timer_iff _ id').mp hindex
    rw [hputs.heldOf] at hheld
    split at hheld
    · cases hheld
    · exact absurd (hused id' held _ hheld htimer) (Nat.not_succ_le_self _)
  have hclassify : ∀ c, ({ n with sessions := sessions } : LogNode).classify c = n.classify c :=
    classify_congr rfl
  simp only [onRead, readOps, ← hsessions, hclassify]
  cases n.classify (cursor.getD Cursor.start) with
  | data => exact ⟨⟨trivial, trivial, trivial, trivial⟩, rfl⟩
  | terminal state error => exact ⟨⟨trivial, trivial, trivial⟩, rfl⟩
  | expired next => exact ⟨⟨trivial, trivial, trivial⟩, rfl⟩
  | caughtUpLive =>
      cases timeoutMs with
      | none => exact ⟨⟨trivial, trivial, ⟨hentry, hnone, by simp⟩, trivial⟩, rfl⟩
      | some ms =>
          cases ms with
          | zero => exact ⟨⟨trivial, trivial, trivial⟩, rfl⟩
          | succ ms =>
              refine ⟨⟨trivial, trivial, ⟨hentry, hnone, ?_⟩, trivial⟩, rfl⟩
              intro token htoken
              obtain rfl := Option.some.inj htoken
              exact hfresh

theorem releaseOne_leads {n : LogNode} (hn : n.sessions.Wf) (id : StreamId) :
    n.sessions.Leads (n.releaseOps id) (n.releaseOne id).1.sessions := by
  set sessions := (n.sessions.clearHeld id).1 with hsessions
  have hcleared : n.sessions.clearHeld id = (sessions, n.sessions.heldOf id) :=
    Prod.ext rfl (n.sessions.clearHeld_snd id)
  have hputs : Puts n.sessions id none sessions := puts_clearHeld hn id
  have hclassify : ∀ c, ({ n with sessions := sessions } : LogNode).classify c = n.classify c :=
    classify_congr rfl
  rw [releaseOps, releaseOne, hcleared]
  cases hheld : n.sessions.heldOf id with
  | none => exact ⟨⟨trivial, trivial⟩, Table.clearHeld_of_none hheld⟩
  | some held =>
      have hentry : ∃ e, sessions.entries[id]? = some e := by
        apply Table.mem_clearHeld
        obtain ⟨e, he, -⟩ := Option.bind_eq_some_iff.mp hheld
        exact ⟨e, he⟩
      have hnone : sessions.heldOf id = none := by rw [hputs.heldOf, if_pos rfl]
      -- the timer of the read that was just cleared is free again
      have hfresh : ∀ token, held.timer = some token → sessions.timerIndex[token]? = none := by
        intro token htoken
        refine Option.eq_none_iff_forall_ne_some.mpr fun id' hindex => ?_
        obtain ⟨held', hheld', htoken'⟩ := (hputs.wf.timer_iff token id').mp hindex
        rw [hputs.heldOf] at hheld'
        split at hheld'
        · cases hheld'
        · rename_i hne
          exact hne (hn.timer_inj hheld hheld' htoken htoken')
      simp only [resolveHeld, hclassify]
      cases n.classify held.cursor with
      | data => exact ⟨⟨trivial, trivial, trivial⟩, rfl⟩
      | terminal state error => exact ⟨⟨trivial, trivial⟩, rfl⟩
      | expired next => exact ⟨⟨trivial, trivial⟩, rfl⟩
      | caughtUpLive => exact ⟨⟨trivial, ⟨hentry, hnone, hfresh⟩, trivial⟩, rfl⟩

theorem sweep_leads {n : LogNode} (hn : n.sessions.Wf) (ids : List StreamId) :
    n.sessions.Leads (n.sweepOps ids) (after releaseOne n ids).sessions := by
  induction ids generalizing n with
  | nil => exact ⟨trivial, rfl⟩
  | cons id ids ih =>
      have hfirst := releaseOne_leads hn id
      exact hfirst.append (ih (hn.leads hfirst))

theorem handle_leads {n : LogNode} (hn : n.sessions.Wf) (hused : n.TimersUsed) (input : Input) :
    n.sessions.Leads (n.tableOps input) (n.handle input).1.sessions := by
  have hsweep : ∀ window : Window,
      n.sessions.Leads ({ n with window := window } : LogNode).releaseHeldOps
        ({ n with window := window } : LogNode).releaseHeld.1.sessions :=
    fun window => sweep_leads (n := { n with window := window }) hn _
  cases input with
  | push payload =>
      simp only [tableOps, handle, onPush]
      cases n.window.lifecycle with
      | live => exact hsweep _
      | _ => exact ⟨trivial, rfl⟩
  | «seal» => exact hsweep _
  | close error =>
      simp only [tableOps, handle, onClose]
      cases n.window.lifecycle with
      | live => exact hsweep _
      | «sealed» => exact hsweep _
      | _ => exact ⟨trivial, rfl⟩
  | read id cursor limits timeoutMs => exact onRead_leads hn hused id cursor limits timeoutMs
  | endStream id =>
      refine ⟨⟨trivial, trivial⟩, ?_⟩
      exact (onEndStream_effect n id).2.2.2.symm
  | timerExpired token =>
      simp only [tableOps, handle, onTimerExpired]
      cases n.sessions.findByTimer token with
      | none => exact ⟨trivial, rfl⟩
      | some id =>
          have hcleared : n.sessions.clearHeld id =
              ((n.sessions.clearHeld id).1, n.sessions.heldOf id) :=
            Prod.ext rfl (n.sessions.clearHeld_snd id)
          simp only
          rw [hcleared]
          cases hheld : n.sessions.heldOf id with
          | none => exact ⟨⟨trivial, trivial⟩, Table.clearHeld_of_none hheld⟩
          | some held => exact ⟨⟨trivial, trivial⟩, rfl⟩
  | evict upToSeq => exact ⟨trivial, rfl⟩

/-- The operations that a run issues lead to its table. -/
theorem issued_leads {n : LogNode} {inputs : List Input}
    (hwf : ∀ front, front <+: inputs → (after handle n front).sessions.Wf)
    (hused : ∀ front, front <+: inputs → (after handle n front).TimersUsed) :
    n.sessions.Leads (n.issued inputs) (after handle n inputs).sessions := by
  induction inputs generalizing n with
  | nil => exact ⟨trivial, rfl⟩
  | cons input rest ih =>
      have hfirst := handle_leads (hwf [] List.nil_prefix) (hused [] List.nil_prefix) input
      apply hfirst.append
      apply ih
      · exact fun front hfront => hwf (input :: front) (List.cons_prefix_cons.mpr ⟨rfl, hfront⟩)
      · exact fun front hfront => hused (input :: front) (List.cons_prefix_cons.mpr ⟨rfl, hfront⟩)

end LogNode

/-- After every operation that a run issues, the indices are those of the entries, and what
is read from them is what a walk over the entries finds. -/
theorem indices_refine (config : Config) (inputs : List Input) :
    let ops := (LogNode.new config).issued inputs
    ops.foldl Table.apply Table.new = (run config inputs).sessions ∧
      ∀ front, front <+: ops → (front.foldl Table.apply Table.new).Indexed := by
  intro ops
  have hsound : ∀ front : List Input,
      (run config front).sessions.Wf ∧ (run config front).TimersUsed := by
    intro front
    obtain ⟨L, haudit, hbooks, -⟩ := run_books config front
    exact ⟨hbooks.wf, hbooks.timersUsed (Ledger.audit_accounts haudit)⟩
  have hleads : Table.new.Leads ops (run config inputs).sessions :=
    LogNode.issued_leads (fun front _ => (hsound front).1) fun front _ => (hsound front).2
  refine ⟨hleads.result, ?_⟩
  rintro front ⟨back, hback⟩
  have hadmits : Table.new.Admits (front ++ back) := hback ▸ hleads.admits
  have hwf := Table.wf_new.foldl (Table.admits_append.mp hadmits).1
  exact hwf.indexed

end TautShape.Log
