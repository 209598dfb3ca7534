import TautShape.Log.History
import TautShape.Lib.Polling
/-!
# Forward progress and the client's loop

The client reads, takes the next cursor of the answer and reads again until an
answer ends the log or none comes.  Every answer with data moves its cursor,
except when the request asked for no record at all: then the answer is empty data
at the same cursor and the loop asks for the same thing forever.
-/

namespace TautShape.Log

open TautShape.Lib

namespace LogNode

theorem Answers.progress_iff {n : LogNode} {id : StreamId} {r : Request} {response : Response}
    {history : List Bytes} (hholds : n.window.Holds history) (h : n.Answers id r response)
    (hdata : response.state = .data) :
    (response.records ≠ [] ∧ r.position.seq < response.nextCursor.seq) ↔
      r.limits.maxRecords ≠ some 0 := by
  obtain ⟨hhead, hfloor, -, hnext⟩ := h.data hdata
  rw [head, hholds.head_eq] at hhead
  have hmoves := hholds.scan_moves hfloor hhead r.limits
  rw [← hnext] at hmoves
  obtain ⟨hrecords, -, hbound⟩ := h.data_slice hholds List.prefix_rfl hdata
  rw [← hmoves, and_iff_right_iff_imp]
  intro hlt hnil
  have hlength := length_slice history r.position.seq response.nextCursor.seq
  rw [← hrecords, hnil, List.length_nil] at hlength
  omega

def resume (n : LogNode) (cursor : Cursor) : Cursor :=
  match n.classify cursor with
  | .expired next => next
  | _ => cursor

theorem resume_of_expired {n : LogNode} {cursor next : Cursor}
    (h : n.classify cursor = .expired next) : n.resume cursor = next := by
  rw [resume, h]

theorem resume_of_live {n : LogNode} {cursor : Cursor}
    (h : ∀ next, n.classify cursor ≠ .expired next) : n.resume cursor = cursor := by
  unfold resume
  split
  · rename_i next hnext
    exact absurd hnext (h next)
  · rfl

theorem classify_of_between {n : LogNode} {cursor : Cursor} (hhead : cursor.seq ≤ n.head)
    (hfloor : n.floor ≤ cursor.seq + 1) (next : Cursor) : n.classify cursor ≠ .expired next := by
  have hspec := n.classify_spec cursor
  intro h
  rw [h] at hspec
  cases hspec with
  | ahead hahead => omega
  | behind hbehind _ => omega

theorem scan_of_data {n : LogNode} {history : List Bytes} (hholds : n.window.Holds history)
    {cursor : Cursor} (hdata : n.classify cursor = .data) (limits : Limits) :
    n.floor ≤ cursor.seq + 1 ∧ cursor.seq ≤ (n.window.scan cursor.seq limits).2 ∧
      (n.window.scan cursor.seq limits).2 ≤ n.head ∧
      (cursor.seq < (n.window.scan cursor.seq limits).2 ↔ limits.maxRecords ≠ some 0) := by
  have hspec := n.classify_spec cursor
  rw [hdata] at hspec
  obtain ⟨hhead, hfloor⟩ : cursor.seq < n.head ∧ n.floor ≤ cursor.seq + 1 := by
    cases hspec with
    | data hhead hfloor => exact ⟨hhead, hfloor⟩
  rw [head, hholds.head_eq] at hhead
  obtain ⟨-, hle, hbound⟩ := hholds.scan_slice hfloor hhead.le limits
  rw [head, hholds.head_eq]
  exact ⟨hfloor, hle, hbound, hholds.scan_moves hfloor hhead limits⟩

/-- The replacement of an expired cursor is not expired again. -/
theorem classify_resume {n : LogNode} (hn : n.floor ≤ n.head + 1) (cursor next : Cursor) :
    n.classify (n.resume cursor) ≠ .expired next := by
  have hspec := n.classify_spec cursor
  unfold resume
  generalize n.classify cursor = resolution at hspec ⊢
  cases hspec with
  | ahead _ => exact classify_of_between (by simp) (by simpa using hn) next
  | behind hbehind _ =>
      refine classify_of_between ?_ ?_ next
      · simp only
        omega
      · simp only
        omega
  | data hhead hfloor => exact classify_of_between hhead.le hfloor next
  | terminal hhead _ _ _ => exact classify_of_between hhead.le (by omega) next
  | caughtUpLive hhead _ => exact classify_of_between hhead.le (by omega) next

end LogNode

/-! ## The loop -/

/-- What a client sends with each of its reads.  The one of the source has an option
for the record bound and leaves the byte bound open. -/
structure Opts where
  streamId : StreamId
  limits : Limits

/-- The read of a round, held when it cannot be answered. -/
def sendRead (opts : Opts) (s : LogNode × Cursor) : LogNode × List Output :=
  s.1.onRead opts.streamId (some s.2) opts.limits none

/-- The answer among the outputs; control messages are passed over. -/
def received (out : List Output) : Option Response :=
  out.findSome? fun
    | .response response => some response
    | _ => none

def State.continues : State → Bool
  | .data | .wouldBlock | .expired => true
  | .eof | .closed | .failed => false

def driveContinues (opts : Opts) (s : LogNode × Cursor) : Bool :=
  (received (sendRead opts s).2).any fun response => response.state.continues

def driveRound (opts : Opts) (s : LogNode × Cursor) : LogNode × Cursor :=
  let (n, out) := sendRead opts s
  (n, ((received out).map (·.nextCursor)).getD s.2)

theorem received_onRead (n : LogNode) (id : StreamId) (cursor : Cursor) (limits : Limits) :
    received (n.onRead id (some cursor) limits none).2 = n.answerOf id cursor limits := by
  have hcancel : ∀ timer out, received (LogNode.cancelTimer timer ++ out) = received out := by
    intro timer out
    cases timer <;> rfl
  simp only [LogNode.onRead, Option.getD_some]
  generalize (n.sessions.getOrCreate id).clearHeld id = cleared
  have hclassify : ({ n with sessions := cleared.1 } : LogNode).classify cursor =
      n.classify cursor := LogNode.classify_congr rfl _
  rw [LogNode.answerOf, hclassify]
  cases n.classify cursor with
  | caughtUpLive => simpa [received] using hcancel (cleared.2.bind HeldRead.timer) []
  | _ => exact hcancel _ _

theorem driveRound_window (opts : Opts) (s : LogNode × Cursor) :
    (driveRound opts s).1.window = s.1.window := by
  simp only [driveRound, sendRead]
  exact s.1.onRead_window _ _ _ _

theorem driveRound_classify (opts : Opts) (s : LogNode × Cursor) (cursor : Cursor) :
    (driveRound opts s).1.classify cursor = s.1.classify cursor :=
  LogNode.classify_congr (driveRound_window opts s) cursor

theorem driveRound_resume (opts : Opts) (s : LogNode × Cursor) (cursor : Cursor) :
    (driveRound opts s).1.resume cursor = s.1.resume cursor := by
  rw [LogNode.resume, LogNode.resume, driveRound_classify]

inductive Drives (opts : Opts) (s : LogNode × Cursor) : Prop where
  | resumed (hexpired : s.1.classify s.2 = .expired (driveRound opts s).2)
      (hlive : driveContinues opts s = true)
  | advanced (hdata : s.1.classify s.2 = .data)
      (hnext : (driveRound opts s).2 = ⟨(s.1.window.scan s.2.seq opts.limits).2⟩)
      (hlive : driveContinues opts s = true)
  | stopped (hdata : s.1.classify s.2 ≠ .data) (hexpired : ∀ next, s.1.classify s.2 ≠ .expired next)
      (hdead : driveContinues opts s = false)

theorem driveRound_spec (opts : Opts) (s : LogNode × Cursor) : Drives opts s := by
  have hspec := s.1.classify_spec s.2
  have hreceived : received (sendRead opts s).2 = s.1.answerOf opts.streamId s.2 opts.limits :=
    received_onRead _ _ _ _
  have hlive : driveContinues opts s =
      (s.1.answerOf opts.streamId s.2 opts.limits).any fun a => a.state.continues := by
    rw [driveContinues, hreceived]
  have hnext : (driveRound opts s).2 =
      ((s.1.answerOf opts.streamId s.2 opts.limits).map (·.nextCursor)).getD s.2 := by
    rw [driveRound, ← hreceived]
  rw [LogNode.answerOf] at hlive hnext
  generalize hcase : s.1.classify s.2 = resolution at hlive hnext hspec
  cases hspec with
  | ahead _ => exact .resumed (by rw [hcase, hnext]; rfl) hlive
  | behind _ _ => exact .resumed (by rw [hcase, hnext]; rfl) hlive
  | data _ _ => exact .advanced hcase hnext hlive
  | terminal _ state _ hstate =>
      refine .stopped (by simp [hcase]) (by simp [hcase]) ?_
      rw [hlive]
      rcases hstate with rfl | rfl | rfl <;> rfl
  | caughtUpLive _ _ => exact .stopped (by simp [hcase]) (by simp [hcase]) hlive

/-- What is left of the log for the loop; an expired cursor costs one more round. -/
def remaining (s : LogNode × Cursor) : Nat :=
  match s.1.classify s.2 with
  | .expired _ => s.1.head + 1
  | _ => s.1.head - s.2.seq

theorem remaining_of_live {s : LogNode × Cursor} (h : ∀ next, s.1.classify s.2 ≠ .expired next) :
    remaining s = s.1.head - s.2.seq := by
  unfold remaining
  split
  · rename_i next hnext
    exact absurd hnext (h next)
  · rfl

/-- The record bound is not zero, or nothing is left to read where the loop resumes. -/
def Productive (opts : Opts) (s : LogNode × Cursor) : Prop :=
  opts.limits.maxRecords ≠ some 0 ∨ s.1.classify (s.1.resume s.2) ≠ .data

instance (opts : Opts) (s : LogNode × Cursor) : Decidable (Productive opts s) :=
  inferInstanceAs (Decidable (_ ∨ _))

theorem driveRound_holds {s : LogNode × Cursor} {history : List Bytes}
    (hholds : s.1.window.Holds history) (opts : Opts) :
    (driveRound opts s).1.window.Holds history := by
  rwa [driveRound_window]

theorem drive_advances {s : LogNode × Cursor} {history : List Bytes}
    (hholds : s.1.window.Holds history) {opts : Opts} (hgood : Productive opts s)
    (hlive : driveContinues opts s = true) :
    Productive opts (driveRound opts s) ∧ remaining (driveRound opts s) < remaining s := by
  have hhead : (driveRound opts s).1.head = s.1.head :=
    congrArg Window.head (driveRound_window opts s)
  cases driveRound_spec opts s with
  | resumed hexpired _ =>
      have hfloor : s.1.floor ≤ s.1.head + 1 := by
        rw [LogNode.floor, LogNode.head, hholds.head_eq]
        exact hholds.floor_le
      have hnext := LogNode.resume_of_expired hexpired
      have hfresh : ∀ next, s.1.classify (driveRound opts s).2 ≠ .expired next :=
        hnext ▸ LogNode.classify_resume hfloor s.2
      constructor
      · rwa [Productive, driveRound_classify, driveRound_resume, LogNode.resume_of_live hfresh,
          ← hnext]
      · rw [remaining_of_live (by simpa only [driveRound_classify] using hfresh), hhead, remaining,
          hexpired]
        simp only
        omega
  | advanced hdata hnext _ =>
      have hzero : opts.limits.maxRecords ≠ some 0 := by
        rw [Productive, LogNode.resume_of_live (by simp [hdata])] at hgood
        exact hgood.resolve_right (not_not.mpr hdata)
      obtain ⟨hfloor, hle, hbound, hmoves⟩ := LogNode.scan_of_data hholds hdata opts.limits
      have hlt := hmoves.mpr hzero
      have hseq : (driveRound opts s).2.seq = (s.1.window.scan s.2.seq opts.limits).2 :=
        congrArg Cursor.seq hnext
      have hfresh : ∀ next, s.1.classify (driveRound opts s).2 ≠ .expired next :=
        LogNode.classify_of_between (by omega) (by omega)
      refine ⟨.inl hzero, ?_⟩
      rw [remaining_of_live (by simpa only [driveRound_classify] using hfresh), hhead, hseq,
        remaining_of_live (by simp [hdata])]
      omega
  | stopped _ _ hdead => simp [hlive] at hdead

theorem drive_stuck {s : LogNode × Cursor} {history : List Bytes}
    (hholds : s.1.window.Holds history) {opts : Opts} (hbad : ¬ Productive opts s) :
    driveContinues opts s = true ∧ ¬ Productive opts (driveRound opts s) := by
  obtain ⟨hzero, hdata⟩ := not_or.mp hbad
  rw [not_not] at hzero hdata
  suffices hthen : driveContinues opts s = true ∧
      s.1.classify (s.1.resume (driveRound opts s).2) = .data by
    refine ⟨hthen.1, not_or.mpr ⟨not_not.mpr hzero, not_not.mpr ?_⟩⟩
    rw [driveRound_classify, driveRound_resume, hthen.2]
  cases driveRound_spec opts s with
  | resumed hexpired hlive =>
      rw [LogNode.resume_of_expired hexpired] at hdata
      exact ⟨hlive, by rw [LogNode.resume_of_live (by simp [hdata]), hdata]⟩
  | advanced hread hnext hlive =>
      obtain ⟨-, hle, -, hmoves⟩ := LogNode.scan_of_data hholds hread opts.limits
      have hstays : (s.1.window.scan s.2.seq opts.limits).2 = s.2.seq := by
        by_contra hne
        exact hmoves.mp (by omega) hzero
      exact ⟨hlive, by rw [hnext, hstays, hdata]⟩
  | stopped hread hexpired _ =>
      rw [LogNode.resume_of_live hexpired] at hdata
      exact absurd hdata hread

/-- The loop on a node that receives nothing else ends exactly when it is productive. -/
theorem drive_ends_iff {s : LogNode × Cursor} {history : List Bytes}
    (hholds : s.1.window.Holds history) (opts : Opts) :
    Ends (driveContinues opts) (driveRound opts) s ↔ Productive opts s := by
  constructor
  · intro hends
    by_contra hbad
    have hstep : ∀ t : LogNode × Cursor, t.1.window.Holds history ∧ ¬ Productive opts t →
        driveContinues opts t = true ∧
          (driveRound opts t).1.window.Holds history ∧ ¬ Productive opts (driveRound opts t) := by
      rintro t ⟨ht, htbad⟩
      obtain ⟨hlive, hthen⟩ := drive_stuck ht htbad
      exact ⟨hlive, driveRound_holds ht opts, hthen⟩
    exact not_ends_of_trapped hstep ⟨hholds, hbad⟩ hends
  · intro hgood
    have hstep : ∀ t : LogNode × Cursor, t.1.window.Holds history ∧ Productive opts t →
        driveContinues opts t = true →
          ((driveRound opts t).1.window.Holds history ∧ Productive opts (driveRound opts t)) ∧
            remaining (driveRound opts t) < remaining t := by
      rintro t ⟨ht, htgood⟩ hlive
      obtain ⟨hthen, hlt⟩ := drive_advances ht htgood hlive
      exact ⟨⟨driveRound_holds ht opts, hthen⟩, hlt⟩
    obtain ⟨t, -, -, hpoll⟩ :=
      poll_of_measure remaining hstep ⟨hholds, hgood⟩ (Nat.lt_succ_self (remaining s))
    exact ⟨remaining s + 1, by rw [hpoll]; rfl⟩

/-- **Forward progress.**  An answer with data brings a record and moves the cursor
exactly when its request did not bound the records by zero, and the loop of a client
ends exactly when it did not do so with something to read. -/
theorem forward_progress_iff (config : Config) (inputs : List Input) :
    let n := run config inputs
    let events := exchange config inputs
    ∃ L : LogLedger, Ledger.audit events = some L ∧
      L.Accounts (Ledger.asked events) (Ledger.expiries events) (Ledger.replies events) ∧
      (∀ r response, Delivered L r response → response.state = .data →
        ((response.records ≠ [] ∧ r.position.seq < response.nextCursor.seq) ↔
          r.limits.maxRecords ≠ some 0)) ∧
      ∀ opts cursor, Ends (driveContinues opts) (driveRound opts) (n, cursor) ↔
        Productive opts (n, cursor) := by
  intro n events
  obtain ⟨L, haudit, -, hfair⟩ := run_books config inputs
  refine ⟨L, haudit, Ledger.audit_accounts haudit, ?_, ?_⟩
  · intro r response hdelivered hdata
    obtain ⟨front, id, -, hanswers⟩ := hdelivered.answers hfair
    exact hanswers.progress_iff (run_holds config front) hdata
  · intro opts cursor
    exact drive_ends_iff (run_holds config inputs) opts

/-- One record is there, the request asks for none of it, and reading on from the
answer's cursor never ends. -/
theorem empty_data_spins :
    let n := run ⟨.explicitOnly⟩ [.push [1]]
    let opts : Opts := ⟨"s", ⟨some 0, none⟩⟩
    (n.handle (.read "s" none opts.limits none)).2 =
        [.response ⟨"s", [], ⟨0⟩, .data, none⟩] ∧
      ¬ Ends (driveContinues opts) (driveRound opts) (n, Cursor.start) := by
  intro n opts
  refine ⟨by decide, fun hends => ?_⟩
  have hgood := (drive_ends_iff (run_holds ⟨.explicitOnly⟩ [.push [1]]) opts).mp hends
  revert hgood
  decide

end TautShape.Log
