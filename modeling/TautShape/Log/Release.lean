import TautShape.Log.Node
/-!
# What a read and a release do

The specification lemmas of `on_read` and of one round of the release sweep: how
the request is answered, and what becomes of the held reads of the table.
-/

namespace TautShape.Log

open TautShape.Lib

structure Request where
  cursor : Option Cursor
  limits : Limits
  timeoutMs : Option Nat
deriving DecidableEq, Repr

/-- A request without a cursor starts at the beginning. -/
def Request.position (r : Request) : Cursor := r.cursor.getD Cursor.start

namespace LogNode

/-- The answer the window has for a cursor, `none` while it is caught up and live. -/
def answerOf (n : LogNode) (id : StreamId) (cursor : Cursor) (limits : Limits) :
    Option Response :=
  match n.classify cursor with
  | .data => some ⟨id, (n.window.scan cursor.seq limits).1,
      ⟨(n.window.scan cursor.seq limits).2⟩, .data, none⟩
  | .terminal state error => some ⟨id, [], cursor, state, error⟩
  | .expired next => some ⟨id, [], next, .expired, none⟩
  | .caughtUpLive => none

/-- A response that the node may give to a request: the window's own answer, or
`would_block` for a probe or a timeout. -/
def Answers (n : LogNode) (id : StreamId) (r : Request) (response : Response) : Prop :=
  n.answerOf id r.position r.limits = some response ∨
    response = ⟨id, [], r.position, .wouldBlock, none⟩

theorem Answers.stream {n : LogNode} {id : StreamId} {r : Request} {response : Response}
    (h : n.Answers id r response) : response.streamId = id := by
  rcases h with h | rfl
  · unfold answerOf at h
    split at h
    · exact Option.some.inj h ▸ rfl
    · exact Option.some.inj h ▸ rfl
    · exact Option.some.inj h ▸ rfl
    · simp at h
  · rfl

theorem classify_congr {n m : LogNode} (h : m.window = n.window) (cursor : Cursor) :
    m.classify cursor = n.classify cursor := by
  unfold classify head floor
  rw [h]

theorem answerOf_congr {n m : LogNode} (h : m.window = n.window) (id : StreamId) (cursor : Cursor)
    (limits : Limits) : m.answerOf id cursor limits = n.answerOf id cursor limits := by
  rw [answerOf, answerOf, classify_congr h, h]

inductive Classifies (n : LogNode) (cursor : Cursor) : Resolution → Prop where
  | ahead (hahead : n.head < cursor.seq) : Classifies n cursor (.expired ⟨n.head⟩)
  | behind (hbehind : cursor.seq + 1 < n.floor) (hhead : cursor.seq ≤ n.head) :
      Classifies n cursor (.expired ⟨n.floor - 1⟩)
  | data (hhead : cursor.seq < n.head) (hfloor : n.floor ≤ cursor.seq + 1) :
      Classifies n cursor .data
  | terminal (hhead : cursor.seq = n.head) (state : State) (error : Option Error)
      (hstate : state = .eof ∨ state = .closed ∨ state = .failed) :
      Classifies n cursor (.terminal state error)
  | caughtUpLive (hhead : cursor.seq = n.head) (hlive : n.window.lifecycle = .live) :
      Classifies n cursor .caughtUpLive

theorem classify_spec (n : LogNode) (cursor : Cursor) :
    n.Classifies cursor (n.classify cursor) := by
  unfold classify
  split
  · rename_i hahead
    exact .ahead hahead
  · rename_i hknown
    split
    · rename_i hbehind
      exact .behind hbehind.2 (by omega)
    · rename_i hfloor
      split
      · rename_i hlt
        exact .data hlt (by omega)
      · have hhead : cursor.seq = n.head := by omega
        split
        · exact .terminal hhead _ _ (.inl rfl)
        · exact .terminal hhead _ _ (.inr (.inl rfl))
        · exact .terminal hhead _ _ (.inr (.inr rfl))
        · rename_i hlive
          exact .caughtUpLive hhead hlive

/-- The table with the read of a stream put to a new value and the others left alone. -/
structure Puts (t : Table) (id : StreamId) (held : Option HeldRead) (t' : Table) : Prop where
  wf : t'.Wf
  heldOf : ∀ id', t'.heldOf id' = if id = id' then held else t.heldOf id'

theorem puts_clearHeld {t : Table} (h : t.Wf) (id : StreamId) :
    Puts t id none (t.clearHeld id).1 :=
  ⟨h.clearHeld id, t.heldOf_clearHeld id⟩

theorem Puts.setWatermark {t t' : Table} {id : StreamId} {held : Option HeldRead}
    (h : Puts t id held t') (watermark : Nat) : Puts t id held (t'.setWatermark id watermark) :=
  ⟨h.wf.setWatermark id watermark, fun id' => by rw [Table.heldOf_setWatermark, h.heldOf]⟩

theorem Puts.setHeld {t t' : Table} {id : StreamId} (h : Puts t id none t')
    (hentry : ∃ e, t'.entries[id]? = some e) {held : HeldRead}
    (hfresh : ∀ token, held.timer = some token → t'.timerIndex[token]? = none) :
    Puts t id (some held) (t'.setHeld id held) := by
  refine ⟨h.wf.setHeld (by rw [h.heldOf, if_pos rfl]) hfresh, fun id' => ?_⟩
  rw [Table.heldOf_setHeld hentry, h.heldOf]
  split <;> rfl

/-! ## Reads -/

inductive OnReads (n : LogNode) (id : StreamId) (r : Request) : LogNode × List Output → Prop where
  | answered (response : Response) (hanswer : n.Answers id r response) (sessions : Table)
      (hputs : Puts n.sessions id none sessions) :
      OnReads n id r ({ n with sessions := sessions },
        cancelTimer ((n.sessions.heldOf id).bind HeldRead.timer) ++ [.response response])
  | held (sessions : Table)
      (hputs : Puts n.sessions id (some ⟨r.position, r.limits, none⟩) sessions) :
      OnReads n id r ({ n with sessions := sessions },
        cancelTimer ((n.sessions.heldOf id).bind HeldRead.timer))
  | timed (ms : Nat) (sessions : Table)
      (hputs : Puts n.sessions id (some ⟨r.position, r.limits, some (n.nextTimer + 1)⟩) sessions) :
      OnReads n id r ({ n with nextTimer := n.nextTimer + 1, sessions := sessions },
        cancelTimer ((n.sessions.heldOf id).bind HeldRead.timer) ++
          [.setTimer (n.nextTimer + 1) ms])

def TimersUsed (n : LogNode) : Prop :=
  ∀ id held token, n.sessions.heldOf id = some held → held.timer = some token →
    token ≤ n.nextTimer

theorem onRead_spec {n : LogNode} (hn : n.sessions.Wf) (hused : n.TimersUsed) (id : StreamId)
    (r : Request) : OnReads n id r (n.onRead id r.cursor r.limits r.timeoutMs) := by
  set sessions := ((n.sessions.getOrCreate id).clearHeld id).1 with hsessions
  have hputs : Puts n.sessions id none sessions := by
    have hclear := puts_clearHeld (hn.getOrCreate id) id
    exact ⟨hclear.wf, fun id' => by rw [hclear.heldOf, Table.heldOf_getOrCreate]⟩
  have hentry : ∃ e, sessions.entries[id]? = some e :=
    Table.mem_clearHeld (Table.mem_getOrCreate n.sessions id)
  have hprev : ((n.sessions.getOrCreate id).clearHeld id).2 = n.sessions.heldOf id := by
    rw [Table.clearHeld_snd, Table.heldOf_getOrCreate]
  have hclassify : ({ n with sessions := sessions } : LogNode).classify r.position =
      n.classify r.position := classify_congr rfl _
  simp only [onRead, ← hsessions, hprev]
  rw [← Request.position, hclassify]
  cases hcase : n.classify r.position with
  | data => exact .answered _ (.inl (by rw [answerOf, hcase])) _ (hputs.setWatermark _)
  | terminal state error => exact .answered _ (.inl (by rw [answerOf, hcase])) _ hputs
  | expired next => exact .answered _ (.inl (by rw [answerOf, hcase])) _ hputs
  | caughtUpLive =>
      simp only
      split
      · exact .answered _ (.inr rfl) _ hputs
      · exact .held _ (hputs.setHeld hentry (by simp))
      · refine .timed _ _ (hputs.setHeld hentry ?_)
        intro token htoken
        obtain rfl := Option.some.inj htoken
        refine Option.eq_none_iff_forall_ne_some.mpr fun id' hindex => ?_
        obtain ⟨held, hheld, htimer⟩ := (hputs.wf.timer_iff _ id').mp hindex
        rw [hputs.heldOf] at hheld
        split at hheld
        · simp at hheld
        · exact absurd (hused id' held _ hheld htimer) (Nat.not_succ_le_self _)

/-! ## The window

Only pushes, seals, closes and evictions touch it.
-/

theorem onRead_window (n : LogNode) (id : StreamId) (cursor : Option Cursor) (limits : Limits)
    (timeoutMs : Option Nat) : (n.onRead id cursor limits timeoutMs).1.window = n.window := by
  simp only [onRead]
  split
  · rfl
  · rfl
  · rfl
  · split <;> rfl

theorem onEndStream_window (n : LogNode) (id : StreamId) :
    (n.onEndStream id).1.window = n.window := by
  unfold onEndStream
  split <;> rfl

theorem onTimerExpired_window (n : LogNode) (token : TimerToken) :
    (n.onTimerExpired token).1.window = n.window := by
  unfold onTimerExpired
  split
  · rfl
  · split <;> rfl

/-! ## Releases -/

inductive Releases (n : LogNode) (id : StreamId) : LogNode × List Output → Prop where
  | absent (h : n.sessions.heldOf id = none) : Releases n id (n, [])
  | answered (held : HeldRead) (hheld : n.sessions.heldOf id = some held) (response : Response)
      (hanswer : n.answerOf id held.cursor held.limits = some response) (sessions : Table)
      (hputs : Puts n.sessions id none sessions) :
      Releases n id ({ n with sessions := sessions },
        cancelTimer held.timer ++ [.response response])
  | parked (held : HeldRead) (hheld : n.sessions.heldOf id = some held)
      (hnone : n.answerOf id held.cursor held.limits = none) (sessions : Table)
      (hputs : Puts n.sessions id (some held) sessions) :
      Releases n id ({ n with sessions := sessions }, [])

theorem releaseOne_spec {n : LogNode} (hn : n.sessions.Wf) (id : StreamId) :
    Releases n id (n.releaseOne id) := by
  have hputs := puts_clearHeld hn id
  have hprev := n.sessions.clearHeld_snd id
  have hmem : ∀ held, n.sessions.heldOf id = some held →
      ∃ e, (n.sessions.clearHeld id).1.entries[id]? = some e := by
    intro held hheld
    refine Table.mem_clearHeld ?_
    cases he : n.sessions.entries[id]? with
    | none => simp [Table.heldOf, he] at hheld
    | some e => exact ⟨e, rfl⟩
  unfold releaseOne
  generalize n.sessions.clearHeld id = cleared at hputs hprev hmem ⊢
  obtain ⟨sessions, prev⟩ := cleared
  simp only at hputs hprev hmem
  subst hprev
  cases hheld : n.sessions.heldOf id with
  | none => exact .absent hheld
  | some held =>
      have hclassify : ({ n with sessions := sessions } : LogNode).classify held.cursor =
          n.classify held.cursor := classify_congr rfl _
      simp only [resolveHeld]
      rw [hclassify]
      cases hcase : n.classify held.cursor with
      | data =>
          exact .answered held hheld _ (by rw [answerOf, hcase]) _ (hputs.setWatermark _)
      | terminal state error =>
          exact .answered held hheld _ (by rw [answerOf, hcase]) _ hputs
      | expired next =>
          exact .answered held hheld _ (by rw [answerOf, hcase]) _ hputs
      | caughtUpLive =>
          refine .parked held hheld (by rw [answerOf, hcase]) _ (hputs.setHeld (hmem held hheld) ?_)
          intro token htoken
          refine Option.eq_none_iff_forall_ne_some.mpr fun id' hindex => ?_
          obtain ⟨held', hheld', htimer⟩ := (hputs.wf.timer_iff token id').mp hindex
          rw [hputs.heldOf] at hheld'
          split at hheld'
          · simp at hheld'
          · rename_i hne
            exact hne (hn.timer_inj hheld hheld' htoken htimer)

/-- The sweep leaves the window and the timer counter alone. -/
theorem Releases.frame {n : LogNode} {id : StreamId} {result : LogNode × List Output}
    (h : Releases n id result) :
    result.1.window = n.window ∧ result.1.nextTimer = n.nextTimer := by
  cases h <;> exact ⟨rfl, rfl⟩

end LogNode

end TautShape.Log
