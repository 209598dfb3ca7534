import TautShape.Log.Release
import TautShape.Log.Order
import TautShape.Lib.Sweep
/-!
# What each input does to the held reads

The table seen from outside: which reads are held, how the streams rank and what
their watermarks are.  A read, a round of the sweep, an end and an expiry each act
on one stream, by a function of the window, the timer counter and what that stream
held.
-/

namespace TautShape.Log

open TautShape.Lib

namespace LogNode

/-! ## Reads -/

/-- What becomes of a request: what is held, the timer counter and the outputs. -/
structure Reception where
  held : Option HeldRead
  nextTimer : Nat
  out : List Output

def receive (n : LogNode) (id : StreamId) (r : Request) : Reception :=
  match n.answerOf id r.position r.limits with
  | some response => ⟨none, n.nextTimer, [.response response]⟩
  | none =>
      match r.timeoutMs with
      | some 0 => ⟨none, n.nextTimer, [.response ⟨id, [], r.position, .wouldBlock, none⟩]⟩
      | none => ⟨some ⟨r.position, r.limits, none⟩, n.nextTimer, []⟩
      | some ms =>
          ⟨some ⟨r.position, r.limits, some (n.nextTimer + 1)⟩, n.nextTimer + 1,
            [.setTimer (n.nextTimer + 1) ms]⟩

inductive Received (n : LogNode) (id : StreamId) (r : Request) : Reception → Prop where
  | answered (response : Response) (hanswer : n.answerOf id r.position r.limits = some response) :
      Received n id r ⟨none, n.nextTimer, [.response response]⟩
  | probed (hnone : n.answerOf id r.position r.limits = none) :
      Received n id r
        ⟨none, n.nextTimer, [.response ⟨id, [], r.position, .wouldBlock, none⟩]⟩
  | held (hnone : n.answerOf id r.position r.limits = none) :
      Received n id r ⟨some ⟨r.position, r.limits, none⟩, n.nextTimer, []⟩
  | timed (hnone : n.answerOf id r.position r.limits = none) (ms : Nat) :
      Received n id r ⟨some ⟨r.position, r.limits, some (n.nextTimer + 1)⟩, n.nextTimer + 1,
        [.setTimer (n.nextTimer + 1) ms]⟩

theorem receive_spec (n : LogNode) (id : StreamId) (r : Request) :
    n.Received id r (n.receive id r) := by
  unfold receive
  split
  · rename_i response hanswer
    exact .answered response hanswer
  · rename_i hnone
    split
    · exact .probed hnone
    · exact .held hnone
    · exact .timed hnone _

/-- The watermark after a cursor was resolved: only data moves it. -/
def progress (n : LogNode) (cursor : Cursor) (limits : Limits) (watermark : Nat) : Nat :=
  match n.classify cursor with
  | .data => (n.window.scan cursor.seq limits).2
  | _ => watermark

structure Receives (n : LogNode) (id : StreamId) (r : Request) (result : LogNode × List Output) :
    Prop where
  window : result.1.window = n.window
  emits : result.2 =
    cancelTimer ((n.sessions.heldOf id).bind HeldRead.timer) ++ (n.receive id r).out
  heldOf : ∀ id', result.1.sessions.heldOf id' =
    if id = id' then (n.receive id r).held else n.sessions.heldOf id'
  nextTimer : result.1.nextTimer = (n.receive id r).nextTimer
  rankOf : ∀ id', result.1.sessions.rankOf id' = (n.sessions.getOrCreate id).rankOf id'
  watermarkOf : ∀ id', result.1.sessions.watermarkOf id' = if id = id' then
    some (n.progress r.position r.limits ((n.sessions.watermarkOf id).getD 0))
    else n.sessions.watermarkOf id'

theorem onRead_receives (n : LogNode) (id : StreamId) (r : Request) :
    n.Receives id r (n.onRead id r.cursor r.limits r.timeoutMs) := by
  set sessions := ((n.sessions.getOrCreate id).clearHeld id).1 with hsessions
  have hentry : ∃ e, sessions.entries[id]? = some e :=
    Table.mem_clearHeld (Table.mem_getOrCreate n.sessions id)
  have hprev : ((n.sessions.getOrCreate id).clearHeld id).2 = n.sessions.heldOf id := by
    rw [Table.clearHeld_snd, Table.heldOf_getOrCreate]
  have hheld : ∀ id', sessions.heldOf id' =
      if id = id' then none else n.sessions.heldOf id' := by
    intro id'
    rw [hsessions, Table.heldOf_clearHeld, Table.heldOf_getOrCreate]
  have hset : ∀ held id', (sessions.setHeld id held).heldOf id' =
      if id = id' then some held else n.sessions.heldOf id' := by
    intro held id'
    rw [Table.heldOf_setHeld hentry, hheld]
    split <;> rfl
  have hrank : ∀ id', sessions.rankOf id' = (n.sessions.getOrCreate id).rankOf id' := by
    intro id'
    rw [hsessions, Table.rankOf_clearHeld]
  have hmark : ∀ id', sessions.watermarkOf id' = if id = id' then
      some ((n.sessions.watermarkOf id).getD 0) else n.sessions.watermarkOf id' := by
    intro id'
    rw [hsessions, Table.watermarkOf_clearHeld, Table.watermarkOf_getOrCreate]
  have hclassify : ({ n with sessions := sessions } : LogNode).classify r.position =
      n.classify r.position := classify_congr rfl _
  simp only [onRead, ← hsessions, hprev]
  rw [← Request.position, hclassify]
  cases hcase : n.classify r.position with
  | data =>
      constructor
      case window => rfl
      case emits => simp [receive, answerOf, hcase]
      case heldOf => simp [receive, answerOf, hcase, hheld]
      case nextTimer => simp [receive, answerOf, hcase]
      case rankOf => simp [hrank]
      case watermarkOf =>
        intro id'
        rw [Table.watermarkOf_setWatermark, hmark, if_pos rfl, progress, hcase, hmark]
        split <;> rfl
  | terminal state error =>
      constructor
      case watermarkOf => simp [hmark, progress, hcase]
      all_goals simp [receive, answerOf, hcase, hheld, hrank]
  | expired next =>
      constructor
      case watermarkOf => simp [hmark, progress, hcase]
      all_goals simp [receive, answerOf, hcase, hheld, hrank]
  | caughtUpLive =>
      cases htimeout : r.timeoutMs with
      | none =>
          constructor
          case watermarkOf => simp [hmark, progress, hcase]
          all_goals simp [receive, answerOf, hcase, htimeout, hset, hrank]
      | some ms =>
          -- a probe is answered at once, any other timeout arms a timer
          cases ms with
          | zero =>
              constructor
              case watermarkOf => simp [hmark, progress, hcase]
              all_goals simp [receive, answerOf, hcase, htimeout, hheld, hrank]
          | succ ms =>
              constructor
              case watermarkOf => simp [hmark, progress, hcase]
              all_goals simp [receive, answerOf, hcase, htimeout, hset, hrank]

/-! ## Releases -/

def release (n : LogNode) (id : StreamId) : Option HeldRead → Option HeldRead × List Output
  | none => (none, [])
  | some held =>
      match n.answerOf id held.cursor held.limits with
      | some response => (none, cancelTimer held.timer ++ [.response response])
      | none => (some held, [])

theorem release_congr {n m : LogNode} (h : m.window = n.window) (id : StreamId) :
    m.release id = n.release id := by
  ext held : 1
  cases held with
  | none => rfl
  | some held => rw [release, release, answerOf_congr h]

structure Frees (n : LogNode) (id : StreamId) (result : LogNode × List Output) : Prop where
  window : result.1.window = n.window
  nextTimer : result.1.nextTimer = n.nextTimer
  emits : result.2 = (n.release id (n.sessions.heldOf id)).2
  heldOf : ∀ id', result.1.sessions.heldOf id' =
    if id = id' then (n.release id (n.sessions.heldOf id)).1 else n.sessions.heldOf id'
  rankOf : ∀ id', result.1.sessions.rankOf id' = n.sessions.rankOf id'
  watermarkOf : ∀ id', result.1.sessions.watermarkOf id' = if id = id' then
    (n.sessions.watermarkOf id).map fun watermark =>
      (n.sessions.heldOf id).elim watermark fun held =>
        n.progress held.cursor held.limits watermark
    else n.sessions.watermarkOf id'

theorem releaseOne_frees (n : LogNode) (id : StreamId) : n.Frees id (n.releaseOne id) := by
  have hprev := n.sessions.clearHeld_snd id
  have hheld := n.sessions.heldOf_clearHeld id
  have hrank := n.sessions.rankOf_clearHeld id
  have hmark := n.sessions.watermarkOf_clearHeld id
  have hentry : ∀ held, n.sessions.heldOf id = some held →
      ∃ e, (n.sessions.clearHeld id).1.entries[id]? = some e := by
    intro held hsome
    refine Table.mem_clearHeld ?_
    cases he : n.sessions.entries[id]? with
    | none => simp [Table.heldOf, he] at hsome
    | some e => exact ⟨e, rfl⟩
  unfold releaseOne
  generalize n.sessions.clearHeld id = cleared at hprev hheld hrank hmark hentry ⊢
  obtain ⟨sessions, prev⟩ := cleared
  simp only at hprev hheld hrank hmark hentry
  subst hprev
  cases hcase : n.sessions.heldOf id with
  | none =>
      show n.Frees id (n, [])
      constructor
      case emits => rw [hcase, release]
      case heldOf =>
        intro id'
        rw [hcase, release]
        split
        · rename_i heq
          rw [← heq, hcase]
        · rfl
      case watermarkOf =>
        intro id'
        split
        · rename_i heq
          rw [← heq, hcase]
          exact Option.map_id'.symm
        · rfl
      all_goals simp
  | some held =>
      have hset : ∀ id', (sessions.setHeld id held).heldOf id' =
          if id = id' then some held else n.sessions.heldOf id' := by
        intro id'
        rw [Table.heldOf_setHeld (hentry held hcase), hheld]
        split <;> rfl
      have hclassify : ({ n with sessions := sessions } : LogNode).classify held.cursor =
          n.classify held.cursor := classify_congr rfl _
      simp only [resolveHeld, hclassify]
      cases hanswer : n.classify held.cursor with
      | data =>
          constructor
          case watermarkOf =>
            intro id'
            rw [Table.watermarkOf_setWatermark, hmark, hmark, hcase]
            simp [progress, hanswer]
          all_goals simp [release, answerOf, hcase, hanswer, hheld, hrank]
      | terminal state error =>
          constructor
          case watermarkOf => simp [hmark, hcase, progress, hanswer]
          all_goals simp [release, answerOf, hcase, hanswer, hheld, hrank]
      | expired next =>
          constructor
          case watermarkOf => simp [hmark, hcase, progress, hanswer]
          all_goals simp [release, answerOf, hcase, hanswer, hheld, hrank]
      | caughtUpLive =>
          constructor
          case watermarkOf => simp [hmark, hcase, progress, hanswer]
          all_goals simp [release, answerOf, hcase, hanswer, hset, hrank]

theorem sweeps_releaseOne (n : LogNode) :
    Sweeps releaseOne (fun s => s.window = n.window) (fun s id => s.sessions.heldOf id)
      n.release where
  keeps s id hwindow := (s.releaseOne_frees id).window.trans hwindow
  emits s id hwindow := by rw [(s.releaseOne_frees id).emits, release_congr hwindow]
  moves s id id' hwindow := by rw [(s.releaseOne_frees id).heldOf, release_congr hwindow]

theorem releaseHeld_frame (n : LogNode) :
    n.releaseHeld.1.window = n.window ∧ n.releaseHeld.1.nextTimer = n.nextTimer ∧
      ∀ id, n.releaseHeld.1.sessions.rankOf id = n.sessions.rankOf id := by
  refine after_induction releaseOne (P := fun s => s.window = n.window ∧
    s.nextTimer = n.nextTimer ∧ ∀ id, s.sessions.rankOf id = n.sessions.rankOf id)
    ⟨rfl, rfl, fun _ => rfl⟩ ?_
  intro s id _ hs
  have hfrees := s.releaseOne_frees id
  exact ⟨hfrees.window.trans hs.1, hfrees.nextTimer.trans hs.2.1,
    fun id' => (hfrees.rankOf id').trans (hs.2.2 id')⟩

/-- The sweep releases each held read once, by creation rank. -/
theorem releaseHeld_effect {n : LogNode} {order : List StreamId} (hn : n.sessions.Wf)
    (hranked : n.sessions.Ranked order) :
    n.releaseHeld.2 = order.flatMap (fun id => (n.release id (n.sessions.heldOf id)).2) ∧
      ∀ id, n.releaseHeld.1.sessions.heldOf id = (n.release id (n.sessions.heldOf id)).1 := by
  have hids := hranked.heldInCreationOrder hn
  have hnodup := hn.heldInCreationOrder_nodup
  constructor
  · calc n.releaseHeld.2
        = (n.sessions.heldInCreationOrder.map fun id =>
            (n.release id (n.sessions.heldOf id)).2).flatten := by
          rw [releaseHeld, n.sweeps_releaseOne.outputs_eq rfl hnodup]
      _ = (order.filter fun id => (n.sessions.heldOf id).isSome).flatMap fun id =>
            (n.release id (n.sessions.heldOf id)).2 := by rw [hids, List.flatMap]
      _ = order.flatMap fun id => (n.release id (n.sessions.heldOf id)).2 := by
          refine flatMap_filter (fun id hnone => ?_) order
          rw [Bool.not_eq_true, Option.isSome_eq_false_iff, Option.isNone_iff_eq_none] at hnone
          rw [hnone, release]
  · intro id
    rw [releaseHeld, n.sweeps_releaseOne.view_after rfl hnodup]
    split
    · rfl
    · rename_i habsent
      rw [hn.mem_heldInCreationOrder] at habsent
      rw [Option.not_isSome_iff_eq_none.mp habsent, release]

/-! ## Ends and expiries -/

/-- Ending a stream drops what it holds; only the producer may be told besides. -/
theorem onEndStream_effect (n : LogNode) (id : StreamId) :
    (∃ stop, (n.onEndStream id).2 =
        cancelTimer ((n.sessions.heldOf id).bind HeldRead.timer) ++ stop ∧
        ∀ o ∈ stop, o = .producerStop .lastReaderGone) ∧
      (∀ id', (n.onEndStream id).1.sessions.heldOf id' =
        if id = id' then none else n.sessions.heldOf id') ∧
      (n.onEndStream id).1.nextTimer = n.nextTimer ∧
      (n.onEndStream id).1.sessions = (n.sessions.remove id).1 := by
  have hremoved := n.sessions.remove_snd id
  have hheldOf := n.sessions.heldOf_remove id
  have hheld : n.sessions.heldOf id = (n.sessions.remove id).2.bind Entry.held := by
    rw [hremoved, Table.heldOf]
  have hsame : (n.sessions.remove id).2 = none → (n.sessions.remove id).1 = n.sessions := by
    intro hnone
    rw [hremoved] at hnone
    simp [Table.remove, hnone]
  unfold onEndStream
  generalize n.sessions.remove id = removed at hheldOf hheld hsame ⊢
  obtain ⟨sessions, entry⟩ := removed
  cases entry with
  | none =>
      obtain rfl : sessions = n.sessions := hsame rfl
      rw [Option.bind_none] at hheld
      exact ⟨⟨[], by simp [hheld, cancelTimer], by simp⟩, hheldOf, rfl, rfl⟩
  | some entry =>
      rw [Option.bind_some] at hheld
      refine ⟨⟨_, by rw [hheld], ?_⟩, hheldOf, rfl, rfl⟩
      intro o ho
      split at ho
      · simpa using ho
      · simp at ho

theorem onTimerExpired_effect {n : LogNode} (hn : n.sessions.Wf) (token : TimerToken) :
    (∃ id held, n.sessions.heldOf id = some held ∧ held.timer = some token ∧
        (n.onTimerExpired token).2 = [.response ⟨id, [], held.cursor, .wouldBlock, none⟩] ∧
        (n.onTimerExpired token).1 = { n with sessions := (n.sessions.clearHeld id).1 }) ∨
      (∀ id held, n.sessions.heldOf id = some held → held.timer ≠ some token) ∧
        n.onTimerExpired token = (n, []) := by
  have hindex := hn.timer_iff token
  unfold onTimerExpired Table.findByTimer
  cases hfound : n.sessions.timerIndex[token]? with
  | none =>
      refine .inr ⟨fun id held hheld htimer => ?_, rfl⟩
      have hsome := (hindex id).mpr ⟨held, hheld, htimer⟩
      simp [hfound] at hsome
  | some id =>
      obtain ⟨held, hheld, htimer⟩ := (hindex id).mp hfound
      have hprev := n.sessions.clearHeld_snd id
      rw [hheld] at hprev
      refine .inl ⟨id, held, hheld, htimer, ?_⟩
      simp only
      generalize n.sessions.clearHeld id = cleared at hprev ⊢
      obtain ⟨sessions, prev⟩ := cleared
      simp only at hprev
      subst hprev
      exact ⟨rfl, rfl⟩

end LogNode

end TautShape.Log
