import TautShape.Log.Drive
import TautShape.Log.Effect
import TautShape.Log.Scan
/-!
# Resuming after an eviction

A cursor that the log does not hold any more is answered with the cursor to go on from.
That one is good, it is the least that is when records were evicted, and reading on from it
brings every record that is left.
-/

namespace TautShape.Log

open TautShape.Lib

/-! ## The classification with its checks -/

namespace LogNode

/-- `floor > 0 && c + 1 < floor` -/
def belowFloor (n : LogNode) (cursor : Cursor) : Except Panic Bool :=
  if n.floor = 0 then return false
  else do return decide ((← addChecked cursor.seq 1) < n.floor)

def classifyChecked (n : LogNode) (cursor : Cursor) : Except Panic Resolution := do
  if n.head < cursor.seq then
    return .expired ⟨n.head⟩
  else if ← n.belowFloor cursor then
    return .expired ⟨← subChecked n.floor 1⟩
  else if cursor.seq < n.head then
    return .data
  else
    match n.window.lifecycle with
    | .sealed => return .terminal .eof none
    | .closed => return .terminal .closed none
    | .failed e => return .terminal .failed (some e)
    | .live => return .caughtUpLive

theorem belowFloor_eq (n : LogNode) {cursor : Cursor} (hcursor : cursor.seq + 1 < 2 ^ 64) :
    n.belowFloor cursor = .ok (decide (0 < n.floor ∧ cursor.seq + 1 < n.floor)) := by
  have hadd : addChecked cursor.seq 1 = .ok (cursor.seq + 1) := if_neg (by omega)
  rw [belowFloor, hadd]
  by_cases hzero : n.floor = 0
  · rw [if_pos hzero, hzero]
    rfl
  · rw [if_neg hzero]
    show Except.ok (decide (cursor.seq + 1 < n.floor)) = _
    congr 2
    exact propext ⟨fun hlt => ⟨by omega, hlt⟩, fun h => h.2⟩

theorem classifyChecked_eq {n : LogNode} (hhead : n.head + 1 < 2 ^ 64) (cursor : Cursor) :
    n.classifyChecked cursor = .ok (n.classify cursor) := by
  unfold classifyChecked classify
  by_cases hahead : n.head < cursor.seq
  · rw [if_pos hahead, if_pos hahead]
    rfl
  rw [if_neg hahead, if_neg hahead, n.belowFloor_eq (by omega)]
  by_cases hbelow : 0 < n.floor ∧ cursor.seq + 1 < n.floor
  · have hsub : subChecked n.floor 1 = .ok (n.floor - 1) := if_neg (by omega)
    rw [if_pos hbelow, decide_eq_true hbelow, hsub]
    rfl
  · rw [if_neg hbelow, decide_eq_false hbelow]
    by_cases hdata : cursor.seq < n.head
    · rw [if_pos hdata, if_pos hdata]
      rfl
    · rw [if_neg hdata, if_neg hdata]
      cases n.window.lifecycle <;> rfl

end LogNode

/-! ## Reads that expire -/

namespace LogNode

/-- The state a read is answered with, `none` when it is held. -/
def readState (n : LogNode) (id : StreamId) (cursor : Option Cursor) (limits : Limits)
    (timeoutMs : Option Nat) : Option State :=
  (received (n.handle (.read id cursor limits timeoutMs)).2).map (·.state)

theorem received_cancel (timer : Option TimerToken) (out : List Output) :
    received (cancelTimer timer ++ out) = received out := by
  cases timer <;> rfl

theorem received_read (n : LogNode) (id : StreamId) (cursor : Option Cursor) (limits : Limits)
    (timeoutMs : Option Nat) :
    received (n.handle (.read id cursor limits timeoutMs)).2 =
      (n.answerOf id (cursor.getD Cursor.start) limits).or
        (if timeoutMs = some 0 then
          some ⟨id, [], cursor.getD Cursor.start, .wouldBlock, none⟩
        else none) := by
  have hreceives := n.onRead_receives id ⟨cursor, limits, timeoutMs⟩
  show received (n.onRead id cursor limits timeoutMs).2 = _
  rw [hreceives.emits, received_cancel]
  simp only [receive, Request.position]
  cases n.answerOf id (cursor.getD Cursor.start) limits with
  | some response => rfl
  | none =>
      cases timeoutMs with
      | none => rfl
      | some ms => cases ms <;> rfl

theorem received_expired {n : LogNode} {id : StreamId} {cursor : Option Cursor} {limits : Limits}
    {timeoutMs : Option Nat} {response : Response}
    (h : received (n.handle (.read id cursor limits timeoutMs)).2 = some response)
    (hexpired : response.state = .expired) :
    n.classify (cursor.getD Cursor.start) = .expired response.nextCursor := by
  have hspec := n.classify_spec (cursor.getD Cursor.start)
  rw [received_read, answerOf] at h
  generalize n.classify (cursor.getD Cursor.start) = resolution at h hspec ⊢
  cases hspec with
  | ahead _ =>
      obtain rfl := Option.some.inj h
      rfl
  | behind _ _ =>
      obtain rfl := Option.some.inj h
      rfl
  | data _ _ =>
      obtain rfl := Option.some.inj h
      cases hexpired
  | terminal _ state _ hstate =>
      obtain rfl := Option.some.inj h
      rcases hstate with rfl | rfl | rfl <;> cases hexpired
  | caughtUpLive _ _ =>
      rw [Option.none_or] at h
      split at h
      · obtain rfl := Option.some.inj h
        cases hexpired
      · cases h

theorem readState_expired_iff (n : LogNode) (id : StreamId) (cursor : Cursor) (limits : Limits)
    (timeoutMs : Option Nat) :
    n.readState id (some cursor) limits timeoutMs = some .expired ↔
      ∃ next, n.classify cursor = .expired next := by
  constructor
  · intro h
    obtain ⟨response, hresponse, hexpired⟩ := Option.map_eq_some_iff.mp h
    exact ⟨response.nextCursor, received_expired hresponse hexpired⟩
  · rintro ⟨next, hnext⟩
    rw [readState, received_read, answerOf, Option.getD_some, hnext]
    rfl

theorem classify_below {n : LogNode} {cursor : Cursor} (hbelow : cursor.seq + 1 < n.floor) :
    ∃ next, n.classify cursor = .expired next := by
  unfold classify
  by_cases hahead : n.head < cursor.seq
  · exact ⟨_, if_pos hahead⟩
  · rw [if_neg hahead, if_pos ⟨by omega, hbelow⟩]
    exact ⟨_, rfl⟩

/-- A cursor below the floor goes on right before the lowest record. -/
theorem next_of_below {n : LogNode} {cursor next : Cursor} (hn : n.floor ≤ n.head + 1)
    (hbelow : cursor.seq + 1 < n.floor) (h : n.classify cursor = .expired next) :
    next = ⟨n.floor - 1⟩ := by
  rw [classify, if_neg (by omega), if_pos ⟨by omega, hbelow⟩] at h
  exact (Resolution.expired.inj h).symm

end LogNode

/-! ## Reading on -/

def roundRecords (opts : Opts) (s : LogNode × Cursor) : List Record :=
  ((received (sendRead opts s).2).map (·.records)).getD []

def readOn (opts : Opts) : Nat → LogNode × Cursor → List Record
  | 0, _ => []
  | rounds + 1, s => roundRecords opts s ++ readOn opts rounds (driveRound opts s)

section

variable {s : LogNode × Cursor} {history : List Bytes}

theorem driveRound_slice (hholds : s.1.window.Holds history) (opts : Opts)
    (hfloor : s.1.floor ≤ s.2.seq + 1) (hhead : s.2.seq ≤ s.1.head) :
    roundRecords opts s = slice history s.2.seq (driveRound opts s).2.seq ∧
      s.2.seq ≤ (driveRound opts s).2.seq ∧ (driveRound opts s).2.seq ≤ s.1.head ∧
      (opts.limits.maxRecords ≠ some 0 → s.2.seq < s.1.head →
        s.2.seq < (driveRound opts s).2.seq) := by
  have hreceived : received (sendRead opts s).2 = s.1.answerOf opts.streamId s.2 opts.limits :=
    received_onRead _ _ _ _
  have hrecords : roundRecords opts s =
      ((s.1.answerOf opts.streamId s.2 opts.limits).map (·.records)).getD [] := by
    rw [roundRecords, hreceived]
  have hnext : (driveRound opts s).2 =
      ((s.1.answerOf opts.streamId s.2 opts.limits).map (·.nextCursor)).getD s.2 := by
    rw [driveRound, ← hreceived]
  have hspec := s.1.classify_spec s.2
  rw [LogNode.answerOf] at hrecords hnext
  have hstays : roundRecords opts s = [] → (driveRound opts s).2 = s.2 → s.2.seq = s.1.head →
      roundRecords opts s = slice history s.2.seq (driveRound opts s).2.seq ∧
        s.2.seq ≤ (driveRound opts s).2.seq ∧ (driveRound opts s).2.seq ≤ s.1.head ∧
        (opts.limits.maxRecords ≠ some 0 → s.2.seq < s.1.head →
          s.2.seq < (driveRound opts s).2.seq) := by
    intro hnone hsame hcaught
    rw [hnone, hsame, slice_self]
    exact ⟨rfl, le_rfl, hhead, fun _ hlt => absurd hlt (by omega)⟩
  generalize s.1.classify s.2 = resolution at hspec hrecords hnext
  cases hspec with
  | ahead hahead => omega
  | behind hbehind _ => omega
  | data hlt _ =>
      have hheadeq : s.1.head = history.length := hholds.head_eq
      rw [hheadeq] at hlt ⊢
      have hscan := hholds.scan_slice hfloor hlt.le opts.limits
      have hmoves := hholds.scan_moves hfloor hlt opts.limits
      rw [hrecords, hnext]
      exact ⟨hscan.1, hscan.2.1, hscan.2.2, fun hzero _ => hmoves.mpr hzero⟩
  | terminal hcaught _ _ _ => exact hstays hrecords hnext hcaught
  | caughtUpLive hcaught _ => exact hstays hrecords hnext hcaught

theorem readOn_slice (hholds : s.1.window.Holds history) (opts : Opts)
    (hfloor : s.1.floor ≤ s.2.seq + 1) (hhead : s.2.seq ≤ s.1.head) (rounds : Nat) :
    ∃ last, readOn opts rounds s = slice history s.2.seq last ∧ s.2.seq ≤ last ∧
      last ≤ s.1.head ∧
      (opts.limits.maxRecords ≠ some 0 → s.1.head ≤ s.2.seq + rounds → last = s.1.head) := by
  induction rounds generalizing s with
  | zero =>
      refine ⟨s.2.seq, (slice_self history s.2.seq).symm, le_rfl, hhead, ?_⟩
      intro _ hrounds
      omega
  | succ rounds ih =>
      obtain ⟨hrecords, hle, hbound, hmoves⟩ := driveRound_slice hholds opts hfloor hhead
      have hwindow := driveRound_window opts s
      have hfloor' : (driveRound opts s).1.floor ≤ (driveRound opts s).2.seq + 1 := by
        rw [LogNode.floor, hwindow]
        exact hfloor.trans (by omega)
      have hhead' : (driveRound opts s).1.head = s.1.head := congrArg Window.head hwindow
      obtain ⟨last, hrest, hlast, hend, hall⟩ :=
        ih (driveRound_holds hholds opts) hfloor' (hhead' ▸ hbound)
      refine ⟨last, ?_, hle.trans hlast, hhead' ▸ hend, ?_⟩
      · rw [readOn, hrecords, hrest, slice_append hle hlast]
      · intro hzero hrounds
        rw [hhead'] at hall
        apply hall hzero
        have hlt := hmoves hzero
        omega

end

theorem Window.Holds.records_slice {w : Window} {history : List Bytes} (h : w.Holds history) :
    w.records = slice history (w.floor - 1) w.head := by
  rw [slice, h.head_eq, List.take_of_length_le (length_numbered history).le, h.records_eq]

theorem slice_front {history : List Bytes} {lo last hi : Nat} (hlo : lo ≤ last) (hhi : last ≤ hi) :
    slice history lo last <+: slice history lo hi :=
  ⟨slice history last hi, slice_append hlo hhi⟩

/-- Reading on from right before the lowest record brings the records in their order, and
all of them after as many rounds as there are records. -/
theorem readOn_retained {n : LogNode} {history : List Bytes} (hholds : n.window.Holds history)
    (opts : Opts) (rounds : Nat) :
    readOn opts rounds (n, ⟨n.floor - 1⟩) <+: n.window.records ∧
      (opts.limits.maxRecords ≠ some 0 → n.window.records.length ≤ rounds →
        readOn opts rounds (n, ⟨n.floor - 1⟩) = n.window.records) := by
  have hfloor : n.floor ≤ n.head + 1 := by
    rw [LogNode.floor, LogNode.head, hholds.head_eq]
    exact hholds.floor_le
  have hlow : n.floor ≤ n.floor - 1 + 1 := by omega
  have hhigh : n.floor - 1 ≤ n.head := by omega
  obtain ⟨last, hread, hle, hend, hall⟩ :=
    readOn_slice (s := (n, ⟨n.floor - 1⟩)) hholds opts hlow hhigh rounds
  rw [hread, hholds.records_slice]
  refine ⟨slice_front hle hend, fun hzero hrounds => ?_⟩
  have hheadeq : n.head = history.length := hholds.head_eq
  rw [length_slice] at hrounds
  have hlast : last = n.head := by
    apply hall hzero
    show n.head ≤ n.floor - 1 + rounds
    have hfloor' : n.window.floor = n.floor := rfl
    have hhead' : n.window.head = n.head := rfl
    omega
  rw [hlast]
  rfl

/-- **An expired cursor can be resumed.**  The cursor that a read is given instead is not
expired.  Below the floor it is the least such cursor, and reading on from it brings every
record that is retained, from the lowest on.  The classification does not overflow. -/
theorem expired_resumes (config : Config) (inputs : List Input) :
    let n := run config inputs
    (∀ id cursor limits timeoutMs response,
      received (n.handle (.read id cursor limits timeoutMs)).2 = some response →
      response.state = .expired →
        let n' := (n.handle (.read id cursor limits timeoutMs)).1
        (∀ id' limits' timeoutMs',
          n'.readState id' (some response.nextCursor) limits' timeoutMs' ≠ some .expired) ∧
        ((cursor.getD Cursor.start).seq + 1 < n.floor →
          (∀ c < response.nextCursor.seq, ∀ id' limits' timeoutMs',
            n'.readState id' (some ⟨c⟩) limits' timeoutMs' = some .expired) ∧
          ∀ opts rounds, readOn opts rounds (n', response.nextCursor) <+: n.window.records ∧
            (opts.limits.maxRecords ≠ some 0 → n.window.records.length ≤ rounds →
              readOn opts rounds (n', response.nextCursor) = n.window.records))) ∧
      (n.head < 2 ^ 64 - 1 → ∀ cursor : UInt64,
        n.classifyChecked ⟨cursor.toNat⟩ = .ok (n.classify ⟨cursor.toNat⟩)) := by
  intro n
  have hholds : n.window.Holds (history config inputs) := run_holds config inputs
  have hfloor : n.floor ≤ n.head + 1 := by
    rw [LogNode.floor, LogNode.head, hholds.head_eq]
    exact hholds.floor_le
  constructor
  · intro id cursor limits timeoutMs response hreceived hexpired n'
    have hclassified := LogNode.received_expired hreceived hexpired
    have hwindow : n'.window = n.window := n.onRead_window id cursor limits timeoutMs
    have hsame : ∀ c, n'.classify c = n.classify c := LogNode.classify_congr hwindow
    constructor
    · intro id' limits' timeoutMs' hagain
      obtain ⟨next, hnext⟩ := (n'.readState_expired_iff ..).mp hagain
      rw [hsame, ← LogNode.resume_of_expired hclassified] at hnext
      exact LogNode.classify_resume hfloor _ next hnext
    · intro hbelow
      have hnext := LogNode.next_of_below hfloor hbelow hclassified
      have hsamefloor : n'.floor = n.floor := congrArg Window.floor hwindow
      rw [hnext]
      constructor
      · intro c hc id' limits' timeoutMs'
        apply (n'.readState_expired_iff ..).mpr
        apply LogNode.classify_below
        rw [hsamefloor]
        show c + 1 < n.floor
        have hc' : c < n.floor - 1 := hc
        omega
      · intro opts rounds
        have hread := readOn_retained (hwindow ▸ hholds : n'.window.Holds _) opts rounds
        rwa [hsamefloor, hwindow] at hread
  · intro hhead cursor
    exact LogNode.classifyChecked_eq (by omega) _

end TautShape.Log
